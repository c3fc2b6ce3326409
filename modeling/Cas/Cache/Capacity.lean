import Cas.Budget.Credits
import Cas.Cache.Recency
import Cas.Lib.Machine
import Cas.Lib.Registry

/-!
# The bytes of a cache (`cache.rs`, `manifest/file/cache.rs`)

The chunk cache and the page cache hold blocks under a byte budget. A block is charged as long as a
handle to it exists: that of the resident entry, or one that a reader holds. Lookups, fills and clears
take the cache's lock; readers copy and drop their handles at any time, also between two steps of a
fill. A failed assertion or an underflow makes the code panic (`none`).
-/

namespace Cas

open List

namespace Cache

/-- What a fill saw when the budget denied it a block: the charged blocks and the readers' handles. -/
structure Denial where
  buffers : List Nat
  held : List Nat
  deriving DecidableEq, Repr

/-- What the owner of the cache's lock is about to do. -/
inductive Stage (κ : Type)
  | idle
  /-- A fill claims a block. -/
  | claiming (key : κ)
  /-- The budget denied the block. -/
  | evicting (key : κ) (seen : Denial)
  /-- The block is filled and is wrapped into a shared handle. -/
  | wrapping (key : κ) (buffer : Nat)
  | clearing

/-- The block that a fill owns. -/
def Stage.owned {κ : Type} : Stage κ → List Nat
  | .wrapping _ buffer => [buffer]
  | _ => []

def Stage.key {κ : Type} : Stage κ → Option κ
  | .claiming key | .evicting key _ | .wrapping key _ => some key
  | _ => none

end Cache

/-- `Cache` and `PageCache`; blocks have numbers. -/
structure Cache (κ : Type) where
  capacityBytes : Nat
  state : Cache.Lru κ Nat
  payload : Budget
  /-- The blocks with the numbers of their handles. -/
  arcs : List (Registry.Entry Nat)
  /-- The handles of the readers. -/
  readers : List Nat
  fresh : Nat
  stage : Cache.Stage κ

namespace Cache

variable {κ : Type}

def new (bytes : Nat) : Except IoError (Cache κ) :=
  if bytes = 0 ∨ bytes % BLOCK_SIZE ≠ 0 then
    .error ⟨.invalidInput, "invalid cache byte limit"⟩
  else do
    let state ← Lru.new (bytes / BLOCK_SIZE)
    return ⟨bytes, state, Budget.new ⟨bytes, 0⟩, [], [], 0, .idle⟩

/-- Clone a handle for a reader. -/
def hand (c : Cache κ) (buffer : Nat) : Cache κ :=
  { c with arcs := Registry.bump id c.arcs buffer, readers := buffer :: c.readers }

/-- Drop a handle; the last one returns the credit. -/
def dropHandle (c : Cache κ) (buffer : Nat) : Option (Cache κ) := do
  let e ← Registry.find id c.arcs buffer
  let arcs := Registry.release id c.arcs buffer
  if e.owners = 1 then
    (c.payload.release ⟨BLOCK_SIZE, 0⟩).map fun payload => { c with arcs, payload }
  else some { c with arcs }

def refuse (c : Cache κ) : Cache κ :=
  { c with state.counters.refused := c.state.counters.refused + 1, stage := .idle }

variable [DecidableEq κ]

def get (c : Cache κ) (key : κ) : Option (Cache κ) := do
  let r ← c.state.get key
  match r.1 with
  | none => return { c with state := r.2 }
  | some buffer => return hand { c with state := r.2 } buffer

def peek (c : Cache κ) (key : κ) : Cache κ :=
  match c.state.buffer key with
  | none => c
  | some buffer => c.hand buffer

/-- The start of a fill. The chunk cache hands the block out, the page cache does not. -/
def fill (handsOut : Bool) (c : Cache κ) (key : κ) : Option (Cache κ) :=
  match c.state.buffer key with
  | some buffer => do
    let state ← c.state.promote key
    let c := { c with state }
    return if handsOut then c.hand buffer else c
  | none => some { c with stage := .claiming key }

def claim (c : Cache κ) (key : κ) : Option (Cache κ) := do
  let r ← c.payload.claim ⟨BLOCK_SIZE, 0⟩
  if r.1 then
    return { c with
      payload := r.2
      arcs := c.arcs ++ [⟨c.fresh, 1⟩]
      fresh := c.fresh + 1
      stage := .wrapping key c.fresh }
  else
    return { c with
      payload := r.2
      stage := .evicting key ⟨c.arcs.map (·.key), c.readers⟩ }

/-- `Lru::evict`, which drops the handle of the entry it removes. -/
def evict (c : Cache κ) (next : Stage κ) (refused : Cache κ → Cache κ) : Option (Cache κ) :=
  match c.state.oldest.bind c.state.buffer with
  | none => some (refused c)
  | some buffer => do
    let r ← c.state.evict
    dropHandle { c with state := r.2, stage := next } buffer

/-- The metadata budget pays for the shared handle, or it is exhausted. -/
def wrap (handsOut metadata : Bool) (c : Cache κ) (key : κ) (buffer : Nat) : Option (Cache κ) :=
  if metadata then do
    let state ← c.state.insert key buffer
    let c := { c with state, stage := .idle }
    return if handsOut then c.hand buffer else c
  else c.refuse.dropHandle buffer

/-- What a caller, the owner of the lock or a reader does next. -/
inductive Action (κ : Type)
  | get (key : κ)
  | peek (key : κ)
  /-- `valid`: the bytes are a block with this key. -/
  | fill (key : κ) (valid : Bool)
  | clear
  | status
  | claim
  | evict
  | wrap (metadata : Bool)
  | clone (buffer : Nat)
  | drop (buffer : Nat)

/-- An action that has to wait for the lock, or that is not the owner's next one, changes nothing. -/
def step (handsOut : Bool) (c : Cache κ) : Action κ → Option (Cache κ)
  | .get key => match c.stage with
    | .idle => c.get key
    | _ => some c
  | .peek key => match c.stage with
    | .idle => some (c.peek key)
    | _ => some c
  | .fill key valid => match c.stage with
    | .idle => if valid then c.fill handsOut key else some c
    | _ => some c
  | .clear => match c.stage with
    | .idle => some { c with stage := .clearing }
    | _ => some c
  | .status => match c.stage with
    | .idle => (checkedSub c.payload.usage.current.bytes (c.state.len * BLOCK_SIZE)).map fun _ => c
    | _ => some c
  | .claim => match c.stage with
    | .claiming key => c.claim key
    | _ => some c
  | .evict => match c.stage with
    | .evicting key _ => c.evict (.claiming key) refuse
    | .clearing => c.evict .clearing fun c => { c with stage := .idle }
    | _ => some c
  | .wrap metadata => match c.stage with
    | .wrapping key buffer => c.wrap handsOut metadata key buffer
    | _ => some c
  | .clone buffer => some (if buffer ∈ c.readers then c.hand buffer else c)
  | .drop buffer =>
    if buffer ∈ c.readers then dropHandle { c with readers := c.readers.erase buffer } buffer
    else some c

/-! ## Every handle is charged -/

/-- The budget charges the blocks of the handles `pins`. -/
structure Accounted (c : Cache κ) (pins : List Nat) : Prop where
  counts : Registry.Counts id c.arcs pins
  limit : c.payload.limit = ⟨c.capacityBytes, 0⟩
  current : c.payload.usage.current = ⟨c.arcs.length * BLOCK_SIZE, 0⟩
  bound : c.arcs.length * BLOCK_SIZE ≤ c.capacityBytes
  fresh : ∀ b ∈ pins, b < c.fresh

namespace Accounted

variable {c : Cache κ} {pins pins' : List Nat} {b : Nat}

omit [DecidableEq κ] in
theorem perm (h : c.Accounted pins) (hp : pins.Perm pins') : c.Accounted pins' :=
  ⟨h.counts.perm hp, h.limit, h.current, h.bound, fun b hb => h.fresh b (hp.mem_iff.2 hb)⟩

omit [DecidableEq κ] in
theorem congr {c' : Cache κ} (h : c.Accounted pins) (ha : c'.arcs = c.arcs)
    (hp : c'.payload = c.payload) (hb : c'.capacityBytes = c.capacityBytes)
    (hf : c'.fresh = c.fresh) : c'.Accounted pins := by
  refine ⟨ha ▸ h.counts, ?_, ?_, ?_, ?_⟩
  · rw [hp, hb]
    exact h.limit
  · rw [hp, ha]
    exact h.current
  · rw [ha, hb]
    exact h.bound
  · rw [hf]
    exact h.fresh

omit [DecidableEq κ] in
theorem bump (h : c.Accounted pins) (hb : b ∈ pins) :
    Accounted { c with arcs := Registry.bump id c.arcs b } (b :: pins) := by
  have hlen : (Registry.bump id c.arcs b).length = c.arcs.length := length_map _
  refine ⟨h.counts.bump hb, h.limit, ?_, ?_, ?_⟩
  · show c.payload.usage.current = ⟨(Registry.bump id c.arcs b).length * BLOCK_SIZE, 0⟩
    rw [hlen]
    exact h.current
  · show (Registry.bump id c.arcs b).length * BLOCK_SIZE ≤ c.capacityBytes
    rw [hlen]
    exact h.bound
  · intro b' hb'
    rcases mem_cons.1 hb' with rfl | hb'
    · exact h.fresh b' hb
    · exact h.fresh b' hb'

omit [DecidableEq κ] in
theorem length_release (h : c.Accounted (b :: pins)) {e : Registry.Entry Nat}
    (he : Registry.find id c.arcs b = some e) :
    (Registry.release id c.arcs b).length + (if e.owners = 1 then 1 else 0) = c.arcs.length := by
  have hrel : Registry.Counts id (Registry.release id c.arcs b) pins := by
    have := h.counts.release (mem_cons_self (a := b) (l := pins))
    rwa [erase_cons_head] at this
  obtain ⟨hmem, hkey⟩ := Registry.find_some he
  obtain rfl : e.key = b := hkey
  have howners := (h.counts.owners e hmem).1
  rw [count_cons_self] at howners
  rw [hrel.length_eq, h.counts.length_eq, toFinset_cons]
  by_cases hin : e.key ∈ pins
  · have : 0 < pins.count e.key := count_pos_iff.2 hin
    rw [if_neg (by omega), Finset.insert_eq_of_mem (mem_toFinset.2 hin)]
    rfl
  · have : pins.count e.key = 0 := count_eq_zero_of_not_mem hin
    rw [if_pos (by omega), Finset.card_insert_of_notMem (fun h => hin (mem_toFinset.1 h))]

omit [DecidableEq κ] in
theorem drop (h : c.Accounted (b :: pins)) :
    ∃ arcs payload, c.dropHandle b = some { c with arcs, payload } ∧
      Accounted { c with arcs, payload } pins := by
  have hrel : Registry.Counts id (Registry.release id c.arcs b) pins := by
    have := h.counts.release (mem_cons_self (a := b) (l := pins))
    rwa [erase_cons_head] at this
  obtain ⟨e, he, -⟩ := h.counts.find_of_mem (mem_cons_self (a := b) (l := pins))
  have hlen := h.length_release he
  have hfresh : ∀ b' ∈ pins, b' < c.fresh := fun b' hb' => h.fresh b' (mem_cons_of_mem _ hb')
  have hbound := h.bound
  unfold dropHandle
  rw [show Registry.find id c.arcs b = some e from he]
  by_cases ho : e.owners = 1
  · rw [if_pos ho] at hlen
    obtain ⟨payload, hp, hlim, hcur⟩ := Budget.release_bytes (n := BLOCK_SIZE) h.current (by
      simp only [BLOCK_SIZE]
      omega)
    refine ⟨Registry.release id c.arcs b, payload, ?_, hrel, hlim.trans h.limit, ?_, ?_, hfresh⟩
    · simp only [Option.bind_eq_bind, Option.bind_some, if_pos ho, hp]
      rfl
    · have hbytes : c.arcs.length * BLOCK_SIZE - BLOCK_SIZE =
          (Registry.release id c.arcs b).length * BLOCK_SIZE := by
        rw [← hlen, Nat.add_mul, Nat.one_mul, Nat.add_sub_cancel]
      rw [hbytes] at hcur
      exact hcur
    · have hle : (Registry.release id c.arcs b).length ≤ c.arcs.length := by omega
      exact (Nat.mul_le_mul_right _ hle).trans hbound
  · rw [if_neg ho, add_zero] at hlen
    refine ⟨Registry.release id c.arcs b, c.payload, ?_, hrel, h.limit, ?_, ?_, hfresh⟩
    · simp only [Option.bind_eq_bind, Option.bind_some, if_neg ho]
    · show c.payload.usage.current = ⟨(Registry.release id c.arcs b).length * BLOCK_SIZE, 0⟩
      rw [hlen]
      exact h.current
    · show (Registry.release id c.arcs b).length * BLOCK_SIZE ≤ c.capacityBytes
      rw [hlen]
      exact hbound

omit [DecidableEq κ] in
theorem granted (h : c.Accounted pins) {payload : Budget}
    (hlim : payload.limit = c.payload.limit)
    (hcur : payload.usage.current = ⟨c.arcs.length * BLOCK_SIZE + BLOCK_SIZE, 0⟩)
    (hfit : c.arcs.length * BLOCK_SIZE + BLOCK_SIZE ≤ c.capacityBytes) (stage : Stage κ) :
    Accounted { c with payload, arcs := c.arcs ++ [⟨c.fresh, 1⟩], fresh := c.fresh + 1, stage }
      (c.fresh :: pins) := by
  have hlen : (c.arcs ++ [(⟨c.fresh, 1⟩ : Registry.Entry Nat)]).length = c.arcs.length + 1 := by simp
  refine ⟨h.counts.insert ?_, hlim.trans h.limit, ?_, ?_, ?_⟩
  · refine find?_eq_none.2 ?_
    intro e he hk
    have hmem : e.key ∈ pins := h.counts.mem_keys.1 ⟨e, he, rfl⟩
    have hlt := h.fresh e.key hmem
    have : e.key = c.fresh := by simpa using hk
    omega
  · have hbytes : c.arcs.length * BLOCK_SIZE + BLOCK_SIZE =
        (c.arcs ++ [(⟨c.fresh, 1⟩ : Registry.Entry Nat)]).length * BLOCK_SIZE := by
      rw [hlen, add_mul, one_mul]
    rw [hbytes] at hcur
    exact hcur
  · show (c.arcs ++ [(⟨c.fresh, 1⟩ : Registry.Entry Nat)]).length * BLOCK_SIZE ≤ c.capacityBytes
    rw [hlen, add_mul, one_mul]
    exact hfit
  · intro b hb
    show b < c.fresh + 1
    rcases mem_cons.1 hb with rfl | hb
    · exact Nat.lt_succ_self _
    · exact (h.fresh b hb).trans (Nat.lt_succ_self _)

end Accounted

/-! ## Every action keeps the account -/

/-- The handles: of the entries, of the readers, of a fill. -/
def pins (c : Cache κ) (l : List (κ × Nat)) : List Nat := l.map (·.2) ++ c.readers ++ c.stage.owned

structure Sound (c : Cache κ) (l : List (κ × Nat)) : Prop where
  represents : c.state.Represents l
  accounted : c.Accounted (c.pins l)
  nodup : (l.map (·.2) ++ c.stage.owned).Nodup
  capacity : c.state.capacity = c.capacityBytes / BLOCK_SIZE
  aligned : c.capacityBytes % BLOCK_SIZE = 0
  absent : ∀ key, c.stage.key = some key → key ∉ l.map (·.1)
  denied : ∀ key seen, c.stage = .evicting key seen →
    seen.buffers.length * BLOCK_SIZE = c.capacityBytes ∧
      ∀ b ∈ seen.buffers, b ∈ l.map (·.2) ∨ b ∈ seen.held

/-- A cache of some size that keeps its account. -/
def Inv (bytes : Nat) (c : Cache κ) : Prop := c.capacityBytes = bytes ∧ ∃ l, c.Sound l

namespace Sound

variable {c : Cache κ} {l l' : List (κ × Nat)} {b : Nat}

theorem nodup_resident (h : c.Sound l) : (l.map (·.2)).Nodup := (nodup_append.1 h.nodup).1

theorem length_le (h : c.Sound l) : l.length + c.stage.owned.length ≤ c.arcs.length := by
  have hsub : (l.map (·.2) ++ c.stage.owned).toFinset ⊆ (c.pins l).toFinset := by
    intro b hb
    simp only [pins, mem_toFinset, mem_append] at hb ⊢
    rcases hb with hb | hb
    · exact Or.inl (Or.inl hb)
    · exact Or.inr hb
  have := Finset.card_le_card hsub
  rwa [← h.accounted.counts.length_eq, toFinset_card_of_nodup h.nodup, length_append,
    length_map] at this

theorem length_le_capacity (h : c.Sound l) :
    l.length + c.stage.owned.length ≤ c.state.capacity := by
  rw [h.capacity]
  have := h.accounted.bound
  refine h.length_le.trans ((Nat.le_div_iff_mul_le (by decide)).2 this)

theorem hand (h : c.Sound l) (hb : b ∈ c.pins l) : (c.hand b).Sound l := by
  refine ⟨h.represents, ?_, h.nodup, h.capacity, h.aligned, h.absent, h.denied⟩
  have hp : (b :: c.pins l).Perm ((c.hand b).pins l) := by
    show (b :: (l.map (·.2) ++ c.readers ++ c.stage.owned)).Perm
      (l.map (·.2) ++ b :: c.readers ++ c.stage.owned)
    rw [append_assoc, append_assoc, cons_append]
    exact perm_middle.symm
  exact ((h.accounted.bump hb).perm hp).congr rfl rfl rfl rfl

theorem reorder (h : c.Sound l) {state : Lru κ Nat} (hr : state.Represents l') (hp : l.Perm l')
    (hc : state.capacity = c.state.capacity) : Sound { c with state } l' := by
  have hkeys : (l.map (·.1)).Perm (l'.map (·.1)) := hp.map _
  have hvals : (l.map (·.2)).Perm (l'.map (·.2)) := hp.map _
  refine ⟨hr, ?_, ?_, hc.trans h.capacity, h.aligned, ?_, ?_⟩
  · have : (c.pins l).Perm (pins { c with state } l') :=
      (hvals.append_right c.readers).append_right c.stage.owned
    exact (h.accounted.perm this).congr rfl rfl rfl rfl
  · exact (hvals.append_right _).nodup_iff.1 h.nodup
  · intro key hkey hmem
    exact h.absent key hkey (hkeys.mem_iff.2 hmem)
  · intro key seen hs
    obtain ⟨hfull, hall⟩ := h.denied key seen hs
    refine ⟨hfull, fun b hb => ?_⟩
    rcases hall b hb with hb | hb
    · exact Or.inl (hvals.mem_iff.1 hb)
    · exact Or.inr hb

theorem mem_pins_of_buffer (h : c.Sound l) {key : κ} (hb : c.state.buffer key = some b) :
    b ∈ c.pins l := by
  have := h.represents.buffer_eq_some.1 hb
  exact mem_append_left _ (mem_append_left _ (mem_map.2 ⟨_, this, rfl⟩))

theorem touch_perm (l : List (κ × Nat)) (key : κ) : l.Perm (Recency.touch l key) := by
  have h := filter_append_perm (fun e : κ × Nat => decide (e.1 ≠ key)) l
  have hneg : l.filter (fun e => !decide (e.1 ≠ key)) = l.filter fun e => e.1 = key := by
    refine filter_congr fun e _ => ?_
    simp
  rw [hneg] at h
  exact h.symm

theorem get (h : c.Sound l) (key : κ) :
    ∃ c', c.get key = some c' ∧ c'.capacityBytes = c.capacityBytes ∧ ∃ l', c'.Sound l' := by
  obtain ⟨s, hs, hr, hc⟩ := h.represents.get key
  have hsound := h.reorder hr (touch_perm l key) hc
  unfold Cache.get
  rw [hs]
  simp only [Option.bind_eq_bind, Option.bind_some]
  cases hb : Recency.lookup l key with
  | none => exact ⟨_, rfl, rfl, _, hsound⟩
  | some b =>
    refine ⟨_, rfl, rfl, _, hsound.hand ?_⟩
    have hb' : c.state.buffer key = some b := (h.represents.buffer_eq key).trans hb
    have hmem := h.represents.buffer_eq_some.1 hb'
    have : (key, b) ∈ Recency.touch l key := (touch_perm l key).mem_iff.1 hmem
    exact mem_append_left _ (mem_append_left _ (mem_map.2 ⟨_, this, rfl⟩))

theorem peek (h : c.Sound l) (key : κ) :
    (c.peek key).capacityBytes = c.capacityBytes ∧ (c.peek key).Sound l := by
  unfold Cache.peek
  cases hb : c.state.buffer key with
  | none => exact ⟨rfl, h⟩
  | some b => exact ⟨rfl, h.hand (h.mem_pins_of_buffer hb)⟩

/-- The owner of the lock goes on without a block of its own. -/
theorem restage (h : c.Sound l) (ho : c.stage.owned = []) (stage : Stage κ)
    (hs : stage.owned = []) (ha : ∀ key, stage.key = some key → key ∉ l.map (·.1))
    (hd : ∀ key seen, stage ≠ .evicting key seen) : Sound { c with stage } l := by
  refine ⟨h.represents, ?_, ?_, h.capacity, h.aligned, ha, fun key seen he => absurd he (hd key seen)⟩
  · have : pins { c with stage } l = c.pins l := by
      show l.map (·.2) ++ c.readers ++ stage.owned = _
      rw [hs, pins, ho]
    rw [this]
    exact h.accounted.congr rfl rfl rfl rfl
  · show (l.map (·.2) ++ stage.owned).Nodup
    rw [hs, append_nil]
    exact h.nodup_resident

theorem fill (h : c.Sound l) (hidle : c.stage = .idle) (handsOut : Bool) (key : κ) :
    ∃ c', c.fill handsOut key = some c' ∧ c'.capacityBytes = c.capacityBytes ∧
      ∃ l', c'.Sound l' := by
  unfold Cache.fill
  cases hb : c.state.buffer key with
  | none =>
    refine ⟨_, rfl, rfl, l, h.restage (by rw [hidle]; rfl) _ rfl ?_ ?_⟩
    · intro key' hkey
      cases hkey
      rw [← h.represents.keys.mem_iff, ← Lru.find_isSome, Option.not_isSome_iff_eq_none]
      exact Option.map_eq_none_iff.1 hb
    · intro key' seen he
      cases he
  | some b =>
    have hmem := h.represents.buffer_eq_some.1 hb
    obtain ⟨s, hs, hr, hsame⟩ := h.represents.promote_touch (mem_map.2 ⟨_, hmem, rfl⟩)
    have hsound := h.reorder hr (touch_perm l key) hsame.capacity
    simp only [hs, Option.bind_eq_bind, Option.bind_some]
    cases handsOut with
    | false => exact ⟨_, rfl, rfl, _, hsound⟩
    | true =>
      refine ⟨_, rfl, rfl, _, hsound.hand ?_⟩
      have : (key, b) ∈ Recency.touch l key := (touch_perm l key).mem_iff.1 hmem
      exact mem_append_left _ (mem_append_left _ (mem_map.2 ⟨_, this, rfl⟩))

theorem claim (h : c.Sound l) {key : κ} (hstage : c.stage = .claiming key) :
    ∃ c', c.claim key = some c' ∧ c'.capacityBytes = c.capacityBytes ∧ ∃ l', c'.Sound l' := by
  have hpins : c.pins l = l.map (·.2) ++ c.readers := by
    rw [pins, hstage]
    exact append_nil _
  have habsent : key ∉ l.map (·.1) := h.absent key (by rw [hstage]; rfl)
  have hacc := h.accounted
  obtain ⟨payload, hp, hlim, hcur⟩ :=
    Budget.claim_bytes hacc.limit hacc.current hacc.bound BLOCK_SIZE
  unfold Cache.claim
  simp only [hp, Option.bind_eq_bind, Option.bind_some, decide_eq_true_eq]
  by_cases hfit : c.arcs.length * BLOCK_SIZE + BLOCK_SIZE ≤ c.capacityBytes
  · rw [if_pos hfit]
    rw [if_pos hfit] at hcur
    refine ⟨_, rfl, rfl, l, h.represents, ?_, ?_, h.capacity, h.aligned, ?_, ?_⟩
    · refine (hacc.granted hlim hcur hfit (.wrapping key c.fresh)).perm ?_
      rw [hpins]
      exact (perm_append_singleton _ _).symm
    · show (l.map (·.2) ++ [c.fresh]).Nodup
      rw [nodup_append]
      refine ⟨h.nodup_resident, nodup_singleton _, ?_⟩
      rintro b hb b' hb' rfl
      have hlt := hacc.fresh b (mem_append_left _ (mem_append_left _ hb))
      rw [mem_singleton.1 hb'] at hlt
      exact lt_irrefl _ hlt
    · intro key' hkey
      cases hkey
      exact habsent
    · intro key' seen he
      cases he
  · rw [if_neg hfit]
    rw [if_neg hfit] at hcur
    refine ⟨_, rfl, rfl, l, h.represents, ?_, ?_, h.capacity, h.aligned, ?_, ?_⟩
    · have hpins' : pins { c with payload, stage := .evicting key ⟨c.arcs.map (·.key), c.readers⟩ } l =
          c.pins l := by rw [hpins]; exact append_nil _
      rw [hpins']
      exact ⟨hacc.counts, hlim.trans hacc.limit, hcur, hacc.bound, hacc.fresh⟩
    · show (l.map (·.2) ++ ([] : List Nat)).Nodup
      rw [append_nil]
      exact h.nodup_resident
    · intro key' hkey
      cases hkey
      exact habsent
    · -- the budget is exhausted, and every charged block has a handle
      intro key' seen he
      cases he
      constructor
      · have hal := h.aligned
        have hb := hacc.bound
        show (c.arcs.map (·.key)).length * BLOCK_SIZE = c.capacityBytes
        rw [length_map]
        simp only [BLOCK_SIZE] at hal hb hfit ⊢
        omega
      · intro b hb
        obtain ⟨e, he, rfl⟩ := mem_map.1 hb
        have := hacc.counts.mem_keys.1 ⟨e, he, rfl⟩
        rw [hpins] at this
        exact mem_append.1 this

/-- The oldest entry leaves the cache and drops its handle. -/
theorem evict (h : c.Sound l) (ho : c.stage.owned = []) {next : Stage κ} {refused : Cache κ → Cache κ}
    (hn : next.owned = []) (ha : ∀ key, next.key = some key → key ∉ l.map (·.1))
    (hd : ∀ key seen, next ≠ .evicting key seen)
    (hr : (refused c).capacityBytes = c.capacityBytes ∧ (refused c).Sound l) :
    ∃ c', c.evict next refused = some c' ∧ c'.capacityBytes = c.capacityBytes ∧
      ∃ l', c'.Sound l' := by
  unfold Cache.evict
  cases l with
  | nil =>
    have hold : c.state.oldest = none := h.represents.linked.oldest
    rw [hold]
    exact ⟨_, rfl, hr.1, _, hr.2⟩
  | cons e l =>
    obtain ⟨k, b⟩ := e
    have hold : c.state.oldest = some k := h.represents.linked.oldest
    have hbuf : c.state.buffer k = some b := h.represents.buffer_eq_some.2 mem_cons_self
    obtain ⟨s, hs, hrs, hcap⟩ := h.represents.evict
    rw [hold, Option.bind_some, hbuf]
    simp only [hs, Option.bind_eq_bind, Option.bind_some]
    have hpins : c.pins ((k, b) :: l) = b :: (l.map (·.2) ++ c.readers ++ next.owned) := by
      rw [pins, ho, hn]
      rfl
    have hacc : Accounted { c with state := s, stage := next }
        (b :: (l.map (·.2) ++ c.readers ++ next.owned)) := by
      rw [← hpins]
      exact h.accounted.congr rfl rfl rfl rfl
    obtain ⟨arcs, payload, hdrop, hacc'⟩ := hacc.drop
    refine ⟨_, hdrop, rfl, l, hrs, hacc', ?_, hcap.trans h.capacity, h.aligned, ?_,
      fun key seen he => absurd he (hd key seen)⟩
    · show (l.map (·.2) ++ next.owned).Nodup
      rw [hn, append_nil]
      exact (nodup_cons.1 h.nodup_resident).2
    · intro key hkey hmem
      exact ha key hkey (mem_cons_of_mem _ hmem)

theorem refuse (h : c.Sound l) (ho : c.stage.owned = []) : c.refuse.Sound l := by
  have := h.restage ho .idle rfl (by intro key hk; cases hk)
    (by intro key seen he; cases he)
  exact ⟨h.represents.counted _, this.accounted.congr rfl rfl rfl rfl, this.nodup, h.capacity,
    h.aligned, this.absent, this.denied⟩

/-- The block of a fill becomes an entry, or it is dropped. -/
theorem wrap (h : c.Sound l) {key : κ} (hstage : c.stage = .wrapping key b)
    (handsOut metadata : Bool) :
    ∃ c', c.wrap handsOut metadata key b = some c' ∧ c'.capacityBytes = c.capacityBytes ∧
      ∃ l', c'.Sound l' := by
  have hpins : c.pins l = l.map (·.2) ++ c.readers ++ [b] := by rw [pins, hstage]; rfl
  have hacc := h.accounted
  rw [hpins] at hacc
  have hnd : (l.map (·.2) ++ [b]).Nodup := by
    have := h.nodup
    rwa [hstage] at this
  unfold Cache.wrap
  cases metadata with
  | false =>
    have hacc' : c.refuse.Accounted (b :: (l.map (·.2) ++ c.readers)) :=
      (hacc.perm (perm_append_singleton _ _)).congr rfl rfl rfl rfl
    obtain ⟨arcs, payload, hdrop, hacc''⟩ := hacc'.drop
    refine ⟨_, hdrop, rfl, l, h.represents.counted _, ?_, ?_, h.capacity, h.aligned, ?_, ?_⟩
    · refine (hacc''.perm ?_).congr rfl rfl rfl rfl
      show (l.map (·.2) ++ c.readers).Perm (l.map (·.2) ++ c.readers ++ [])
      rw [append_nil]
    · show (l.map (·.2) ++ ([] : List Nat)).Nodup
      rw [append_nil]
      exact h.nodup_resident
    · intro key' hk
      cases hk
    · intro key' seen he
      cases he
  | true =>
    have habsent : key ∉ l.map (·.1) := h.absent key (by rw [hstage]; rfl)
    -- the block itself is charged, so there is room for one more entry
    have hroom : c.state.len < c.state.capacity := by
      have := h.length_le_capacity
      rw [hstage] at this
      rw [h.represents.length_eq]
      exact this
    obtain ⟨s, hs, hrs, hcap⟩ := h.represents.insert (v := b) habsent hroom
    have hsound : Sound { c with state := s, stage := .idle } (l ++ [(key, b)]) := by
      refine ⟨hrs, ?_, ?_, hcap.trans h.capacity, h.aligned, ?_, ?_⟩
      · refine (hacc.perm ?_).congr rfl rfl rfl rfl
        show (l.map (·.2) ++ c.readers ++ [b]).Perm ((l ++ [(key, b)]).map (·.2) ++ c.readers ++ [])
        rw [append_nil, map_append, append_assoc, append_assoc]
        exact (perm_append_comm).append_left _
      · show ((l ++ [(key, b)]).map (·.2) ++ ([] : List Nat)).Nodup
        rw [append_nil, map_append]
        exact hnd
      · intro key' hk
        cases hk
      · intro key' seen he
        cases he
    simp only [if_true, hs, Option.bind_eq_bind, Option.bind_some]
    cases handsOut with
    | false => exact ⟨_, rfl, rfl, _, hsound⟩
    | true =>
      refine ⟨_, rfl, rfl, _, hsound.hand ?_⟩
      exact mem_append_left _ (mem_append_left _ (mem_map.2 ⟨(key, b), by simp, rfl⟩))

theorem drop (h : c.Sound l) (hb : b ∈ c.readers) :
    ∃ c', dropHandle { c with readers := c.readers.erase b } b = some c' ∧
      c'.capacityBytes = c.capacityBytes ∧ c'.Sound l := by
  have hperm : (c.pins l).Perm (b :: (l.map (·.2) ++ c.readers.erase b ++ c.stage.owned)) := by
    have h1 : c.readers.Perm (b :: c.readers.erase b) := perm_cons_erase hb
    refine ((h1.append_left _).append_right _).trans ?_
    rw [append_assoc, append_assoc, cons_append]
    exact perm_middle
  have hacc : Accounted { c with readers := c.readers.erase b }
      (b :: (l.map (·.2) ++ c.readers.erase b ++ c.stage.owned)) :=
    (h.accounted.perm hperm).congr rfl rfl rfl rfl
  obtain ⟨arcs, payload, hdrop, hacc'⟩ := hacc.drop
  exact ⟨_, hdrop, rfl, h.represents, hacc', h.nodup, h.capacity, h.aligned, h.absent, h.denied⟩

end Sound

end Cache

end Cas
