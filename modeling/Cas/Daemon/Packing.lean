import Cas.Daemon.Local

/-!
# Admitted writes always pack

A write is admitted in one call and gathered in the next; in between the frontend only remembers the
open batch. `Packs` is what couples them: what was sent and what is still open are together exactly
the packed mutations, in order, and the admitted counter is their number. An admission that answers
`Ready` leaves a batch with room for its write.
-/

namespace Cas.Daemon

open Cas.Append (Builder Descriptor RequestId MAX_DESCRIPTORS validRange validRange_iff)
open Bytes List

namespace Local

/-! ## What a batch holds -/

def Written.kind : Written → Append.Kind
  | .data _ => .write
  | .zero _ => .zero

def Written.bytes : Written → Nat
  | .data bytes | .zero bytes => bytes

/-- A mutation that was packed: the request, and the bytes its gather left in the batch. -/
structure Mutation where
  id : Nat
  head : QueueHead
  offset : Nat
  data : Written
  bytes : Bytes

/-- The identity under which a request of this image is logged. -/
def requestId (epoch id : Nat) (head : QueueHead) : RequestId :=
  ⟨id + 1, epoch, head.queue, head.head⟩

/-- The logged form of a mutation. -/
def Mutation.request (epoch : Nat) (m : Mutation) : RequestId × Append.Kind × Nat × Nat :=
  (requestId epoch m.id m.head, m.data.kind, m.offset, m.data.bytes)

/-- The logged form of a descriptor. -/
def requested (d : Descriptor) : RequestId × Append.Kind × Nat × Nat := (d.id, d.kind, d.offset, d.length)

/-- The batch holds exactly the mutations `ms`, in order: as descriptors of its builder, as payload
bytes, and as the writes to be answered. -/
structure Packing.Holds [Digest] (epoch : Nat) (batch : Packing) (ms : List Mutation) : Prop where
  descriptors : ∃ ds, batch.builder.Wf ds ∧ ds.map requested = ms.map (Mutation.request epoch)
  writes : batch.writes.map (fun w => (w.id, w.data)) = ms.map fun m => (m.id, m.data)
  payload : batch.builder.buffer.slice BLOCK_SIZE batch.builder.payloadBytes =
    ms.flatMap Mutation.bytes

/-- Commands that carry exactly the mutations `ms`, in order, with every read or flush bounded by
what was sent before it. -/
inductive Delivered [Digest] (first epoch : Nat) : List Command → List Mutation → Prop
  | nil : Delivered first epoch [] []
  | append {cs : List Command} {ms ms' : List Mutation} {batch : Packing}
      (h : Delivered first epoch cs ms) (hb : batch.Holds epoch ms') :
      Delivered first epoch (cs ++ [.append batch]) (ms ++ ms')
  | io {cs : List Command} {ms : List Mutation} {i : Io} (h : Delivered first epoch cs ms)
      (hi : i.boundary = first + ms.length) : Delivered first epoch (cs ++ [.io i]) ms

section Delivered

variable [Digest] {first epoch : Nat} {cs : List Command} {ms : List Mutation}

theorem Packing.Holds.length {batch : Packing} (h : batch.Holds epoch ms) :
    batch.writes.length = ms.length := by
  simpa using congrArg List.length h.writes

theorem Delivered.length (h : Delivered first epoch cs ms) :
    (cs.flatMap Command.writes).length = ms.length := by
  induction h with
  | nil => rfl
  | append _ hb ih =>
    rw [flatMap_append, length_append, length_append, ih, ← hb.length]
    simp [Command.writes]
  | io _ _ ih =>
    rw [flatMap_append, length_append, ih]
    simp [Command.writes]

/-- The boundary of a read or flush counts the mutations in the batches before it. -/
theorem Delivered.boundary (h : Delivered first epoch cs ms) :
    ∀ {before after : List Command} {i : Io}, cs = before ++ .io i :: after →
      i.boundary = first + (before.flatMap Command.writes).length := by
  induction h with
  | nil =>
    intro before after i hc
    simp at hc
  | @append cs _ _ batch h _ ih =>
    intro before after i hc
    rcases eq_nil_or_concat after with rfl | ⟨after, c, rfl⟩
    · have := (append_inj' hc rfl).2
      cases this
    · rw [concat_eq_append, ← cons_append, ← append_assoc] at hc
      exact ih (append_inj' hc rfl).1
  | @io cs ms j h hi ih =>
    intro before after i hc
    rcases eq_nil_or_concat after with rfl | ⟨after, c, rfl⟩
    · obtain ⟨rfl, hij⟩ := append_inj' hc rfl
      obtain rfl : j = i := by simpa using hij
      rw [hi, h.length]
    · rw [concat_eq_append, ← cons_append, ← append_assoc] at hc
      exact ih (append_inj' hc rfl).1

end Delivered

/-! ## The invariant -/

/-- The open batch holds the mutations `ms`, whose ids are below `next`. -/
def Opened [Digest] (l : Local) (next : Nat) (ms : List Mutation) : Prop :=
  match l.packing with
  | none => ms = []
  | some batch => batch.Holds l.epoch ms ∧ batch.builder.imageBytes = l.imageBytes ∧
      batch.builder.lastSerial ≤ next

/-- Everything packed was sent or is still open. -/
structure Packs [Digest] (first : Nat) (l : Local) (next : Nat) (packed : List Mutation) : Prop where
  paused : l.paused = false
  epoch : l.epoch ≠ 0 ∧ l.epoch < U64
  admitted : l.admitted = first + packed.length
  held : ∃ done rest, packed = done ++ rest ∧ Delivered first l.epoch l.sent done ∧
    l.Opened next rest

/-- The mailbox takes every command and the reactor is woken. -/
def delivering : Mailbox := ⟨fun _ => true, fun _ => true⟩

/-- Fields that no call but a pack changes. -/
structure SameImage (l l' : Local) : Prop where
  shared : l'.shared = l.shared
  imageBytes : l'.imageBytes = l.imageBytes
  admitted : l'.admitted = l.admitted

theorem SameImage.trans {l l' l'' : Local} (h : SameImage l l') (h' : SameImage l' l'') :
    SameImage l l'' :=
  ⟨h'.shared.trans h.shared, h'.imageBytes.trans h.imageBytes, h'.admitted.trans h.admitted⟩

section Invariant

variable [Digest] {l : Local} {first next : Nat} {packed : List Mutation}

omit [Digest] in
theorem send_delivering (l : Local) (c : Command) :
    l.send delivering c = ({ l with sent := l.sent ++ [c] }, .ok ()) := by
  unfold send delivering
  simp

theorem Packing.Holds.nil_of_isEmpty {epoch : Nat} {batch : Packing} {ms : List Mutation}
    (h : batch.Holds epoch ms) (he : batch.builder.isEmpty = true) : ms = [] := by
  obtain ⟨ds, hw, hd⟩ := h.descriptors
  have hc : batch.builder.descriptors = 0 := by simpa [Builder.isEmpty] using he
  have hlen := congrArg List.length hd
  rw [List.length_map, List.length_map, ← hw.count, hc] at hlen
  exact List.length_eq_zero_iff.1 hlen.symm

theorem Packs.sealBatch (h : l.Packs first next packed) :
    ∃ l', l.sealBatch delivering = (l', .ok ()) ∧ l'.Packs first next packed ∧ l'.packing = none ∧
      SameImage l l' ∧ Delivered first l'.epoch l'.sent packed := by
  obtain ⟨done, rest, rfl, hd, ho⟩ := h.held
  unfold Local.sealBatch Opened at *
  cases hp : l.packing with
  | none =>
    simp only [hp] at ho
    subst ho
    rw [append_nil] at h ⊢
    refine ⟨l, rfl, h, hp, ⟨rfl, rfl, rfl⟩, hd⟩
  | some batch =>
    simp only [hp] at ho ⊢
    cases he : batch.builder.isEmpty with
    | true =>
      obtain rfl := ho.1.nil_of_isEmpty he
      rw [append_nil] at h ⊢
      refine ⟨_, rfl, ⟨h.paused, h.epoch, h.admitted, done, [], by simp, hd, rfl⟩, rfl,
        ⟨rfl, rfl, rfl⟩, hd⟩
    | false =>
      rw [if_neg (by simp), send_delivering]
      have hall := hd.append ho.1
      exact ⟨_, rfl, ⟨h.paused, h.epoch, h.admitted, _, [], (append_nil _).symm, hall, rfl⟩, rfl,
        ⟨rfl, rfl, rfl⟩, hall⟩

theorem Packs.sealIf (h : l.Packs first next packed) (condition : Bool) :
    ∃ l', l.sealIf delivering condition = (l', .ok ()) ∧ l'.Packs first next packed ∧
      SameImage l l' ∧ (if condition then l'.packing = none else l' = l) := by
  unfold Local.sealIf
  cases condition with
  | false => exact ⟨l, rfl, h, ⟨rfl, rfl, rfl⟩, rfl⟩
  | true =>
    obtain ⟨l', hs, hp, hn, hi, -⟩ := h.sealBatch
    exact ⟨l', hs, hp, hi, hn⟩

omit [Digest] in
theorem matches_of_ready {s : Shared} {a : Answers} {bytes : Nat} {permit : Permit}
    (h : s.admitKind a (.write bytes) = .ok (.ready permit)) :
    (permit.window.any fun slot => !slot.matches bytes) = false := by
  have hr : s.reserveWithEntry a (.write bytes) = .ok (.ready permit) := by
    unfold Shared.admitKind at h
    split at h
    · exact h
    · split at h
      · cases h
      · split at h
        · cases h
        · exact h
  unfold Shared.reserveWithEntry reserveSlot at hr
  split at hr
  · cases hr
  · simp only at hr
    split at hr
    · cases hr
      rfl
    · by_cases hb : bytes > MAX_REQUEST_BYTES ∨ bytes % BLOCK_SIZE ≠ 0
      · rw [if_pos hb] at hr
        cases hr
      · rw [if_neg hb] at hr
        cases hw : a.window with
        | error e => rw [hw] at hr; cases hr
        | ok w =>
          rw [hw] at hr
          cases w with
          | some reason => cases hr
          | none =>
            cases hr
            have hle : bytes ≤ MAX_REQUEST_BYTES := by omega
            have hlt : bytes + BLOCK_SIZE < U64 := by
              simp only [MAX_REQUEST_BYTES, BLOCK_SIZE, U64] at hle ⊢
              omega
            simp [Slot.matches, checkedAdd, hlt]

/-- The open batch has room for a write of `bytes`. -/
def Room (l : Local) (bytes : Nat) : Prop :=
  ∃ batch, l.packing = some batch ∧ batch.builder.descriptors < MAX_DESCRIPTORS ∧
    bytes ≤ batch.builder.allocationBytes - BLOCK_SIZE - batch.builder.payloadBytes

theorem room_of_not_full {batch : Packing} {ms : List Mutation} {bytes : Nat}
    (hp : l.packing = some batch) (hb : batch.Holds l.epoch ms) (hf : batch.full bytes = false) :
    l.Room bytes := by
  obtain ⟨ds, hw, -⟩ := hb.descriptors
  have hcount := hw.count_le
  rw [← hw.count] at hcount
  have hfull : ¬ (batch.builder.descriptors = MAX_DESCRIPTORS ∨
      batch.builder.payloadBytes + bytes > batch.builder.allocationBytes - BLOCK_SIZE) := by
    simpa only [Packing.full, decide_eq_false_iff_not] using hf
  exact ⟨batch, hp, by omega, by omega⟩

/-- A batch is open after `openBatch` answered `Ready`; a new one has room for any request. -/
theorem Packs.openBatch (h : l.Packs first next packed) {a : Answers} {bytes : Nat}
    (hfull : ∀ batch, l.packing = some batch → batch.full bytes = false) :
    ∃ l' r, l.openBatch a bytes = (l', r) ∧ l'.Packs first next packed ∧ SameImage l l' ∧
      (r = .ok (.ready ()) → bytes ≤ MAX_REQUEST_BYTES → l'.Room bytes) := by
  obtain ⟨done, rest, rfl, hd, ho⟩ := h.held
  unfold Local.openBatch
  cases hp : l.packing with
  | some batch =>
    refine ⟨l, _, rfl, h, ⟨rfl, rfl, rfl⟩, fun _ _ => ?_⟩
    rw [Opened, hp] at ho
    exact room_of_not_full hp ho.1 (hfull batch hp)
  | none =>
    simp only
    rw [Opened, hp] at ho
    subst ho
    have same : ∀ r : Except IoError (Decision Unit), r ≠ .ok (.ready ()) →
        ∃ l' r', (l, r) = (l', r') ∧ l'.Packs first next (done ++ []) ∧ SameImage l l' ∧
          (r' = .ok (.ready ()) → bytes ≤ MAX_REQUEST_BYTES → l'.Room bytes) := by
      intro r hr
      exact ⟨l, r, rfl, h, ⟨rfl, rfl, rfl⟩, fun h => absurd h hr⟩
    have hcap : bytes ≤ MAX_REQUEST_BYTES → bytes ≤ if bytes = 0 then 0 else MAX_REQUEST_BYTES := by
      split <;> omega
    generalize (if bytes = 0 then 0 else MAX_REQUEST_BYTES) = capacity at hcap
    split
    · exact same _ (by simp)
    · cases hb : Builder.new l.imageBytes capacity with
      | error e => exact same _ (by simp)
      | ok builder =>
        simp only
        split
        · exact same _ (by simp)
        · split
          · exact same _ (by simp)
          · next hlen _ =>
            have hlen := not_not.1 hlen
            have hw := Builder.wf_new hb
            have himage : builder.imageBytes = l.imageBytes ∧ builder.descriptors = 0 ∧
                builder.payloadBytes = 0 ∧ builder.lastSerial = 0 := by
              obtain ⟨-, hb⟩ := Append.requireFormat_bind_eq_ok.1 hb
              obtain ⟨-, hb⟩ := Append.requireFormat_bind_eq_ok.1 hb
              cases hb
              exact ⟨rfl, rfl, rfl, rfl⟩
            obtain ⟨h1, h2, h3, h4⟩ := himage
            refine ⟨_, _, rfl, ⟨h.paused, h.epoch, h.admitted, done, [], rfl, hd, ?_⟩,
              ⟨rfl, rfl, rfl⟩, fun _ hle => ⟨_, rfl, ?_, ?_⟩⟩
            · refine ⟨⟨⟨[], hw, rfl⟩, rfl, ?_⟩, h1, by simp only [h4]; exact Nat.zero_le _⟩
              simp only [h3, slice, take_zero, flatMap_nil]
            · simp only [h2, MAX_DESCRIPTORS]
              decide
            · simp only [h3, hlen]
              have := hcap hle
              omega

/-- Admission keeps what was packed; a write it lets through has its size reserved and a batch with
room. -/
theorem Packs.admission (h : l.Packs first next packed) (a : Answers) (kind : Kind) :
    ∃ l' r, l.admitKind delivering a kind = (l', r) ∧ l'.Packs first next packed ∧ SameImage l l' ∧
      ∀ bytes permit, kind = .write bytes → r = .ok (.ready permit) →
        (permit.window.any fun slot => !slot.matches bytes) = false ∧
          (bytes ≤ MAX_REQUEST_BYTES → l'.Room bytes) := by
  unfold Local.admitKind
  rw [if_neg (by rw [h.paused]; simp)]
  obtain ⟨l₁, hs₁, h₁, hi₁, -⟩ := h.sealIf (!kind.isWrite)
  rw [hs₁]
  simp only
  cases ha : l₁.shared.admitKind a kind with
  | error e => exact ⟨l₁, _, rfl, h₁, hi₁, nofun⟩
  | ok decision =>
    cases decision with
    | waiting reason =>
      obtain ⟨l₂, hs₂, h₂, hi₂, -⟩ := h₁.sealIf l₁.shared.window
      simp only [hs₂]
      exact ⟨l₂, _, rfl, h₂, hi₁.trans hi₂, nofun⟩
    | ready permit =>
      cases kind with
      | read bytes => exact ⟨l₁, _, rfl, h₁, hi₁, nofun⟩
      | control => exact ⟨l₁, _, rfl, h₁, hi₁, nofun⟩
      | write bytes =>
        obtain ⟨l₂, hs₂, h₂, hi₂, hl₂⟩ :=
          h₁.sealIf (l₁.packing.any fun batch => batch.full bytes)
        have hfull : ∀ batch, l₂.packing = some batch → batch.full bytes = false := by
          intro batch hb
          split at hl₂
          · rw [hl₂] at hb
            cases hb
          · next hany =>
            rw [hl₂] at hb
            simpa [hb] using hany
        obtain ⟨l₃, r, ho, h₃, hi₃, hroom⟩ := h₂.openBatch (a := a) hfull
        simp only [admitWrite, hs₂, ho]
        have hi := (hi₁.trans hi₂).trans hi₃
        cases r with
        | error e => exact ⟨l₃, _, rfl, h₃, hi, nofun⟩
        | ok decision =>
          cases decision with
          | waiting reason => exact ⟨l₃, _, rfl, h₃, hi, nofun⟩
          | ready u =>
            refine ⟨l₃, _, rfl, h₃, hi, ?_⟩
            rintro _ _ ⟨⟩ ⟨⟩
            exact ⟨matches_of_ready ha, hroom rfl⟩

/-- The last `n` payload bytes of the open batch. -/
def gathered (l : Local) (n : Nat) : Bytes :=
  l.packing.elim [] fun batch =>
    batch.builder.buffer.slice (BLOCK_SIZE + batch.builder.payloadBytes - n) n

section Pack

variable {id offset : Nat} {head : QueueHead} {permit : Permit} {data : Written}
  {encode : Builder → RequestId → Builder × Except FormatError Unit}

omit [Digest] in
theorem requestId_fits (hid : id + 1 < U64) {epoch : Nat} (he : epoch < U64) (head : QueueHead) :
    (requestId epoch id head).Fits :=
  ⟨hid, he, head.queue.isLt, head.head.isLt⟩

/-- An admitted write meets every condition of the builder. -/
theorem Packs.admits (h : l.Packs first next packed) (hn : next ≤ id)
    (hr : validRange offset data.bytes l.imageBytes = true) (hroom : l.Room data.payloadBytes)
    (head : QueueHead) : ∃ batch, l.packing = some batch ∧
      batch.builder.admits (requestId l.epoch id head) offset data.bytes data.payloadBytes = .ok () := by
  obtain ⟨batch, hp, hd, hb⟩ := hroom
  obtain ⟨done, rest, -, -, ho⟩ := h.held
  rw [Opened, hp] at ho
  refine ⟨batch, hp, Builder.admits_eq_ok.2 ⟨hd, ⟨?_, h.epoch.1⟩, ?_, hb⟩⟩
  · have := ho.2.2
    simp only [requestId]
    omega
  · rw [ho.2.1]
    exact hr

/-- The counters of a pack are exhausted. -/
def Exhausted (l : Local) (id : Nat) : Prop := U64 ≤ id + 1 ∨ U64 ≤ l.admitted + 1

omit [Digest] in
theorem pack_of_exhausted (hx : l.Exhausted id) (head : QueueHead) (permit : Permit)
    (data : Written) (encode : Builder → RequestId → Builder × Except FormatError Unit) :
    ∃ e, l.pack id head permit data encode = (l, .error e) := by
  unfold pack checkedAdd
  split
  · exact ⟨_, rfl⟩
  · split
    · exact ⟨_, rfl⟩
    · rcases hx with hx | hx
      · rw [if_neg (not_lt.2 hx)]
        exact ⟨_, rfl⟩
      · rw [if_neg (not_lt.2 hx)]
        split
        · exact ⟨_, rfl⟩
        · exact ⟨_, rfl⟩
        · next heq => cases heq

omit [Digest] in
theorem pack_eq {batch : Packing} (hwin : (permit.window.any fun slot =>
    !slot.matches data.payloadBytes) = false) (hp : l.packing = some batch)
    (hx : ¬ l.Exhausted id) :
    l.pack id head permit data encode =
      match encode batch.builder (requestId l.epoch id head) with
      | (builder, .error e) =>
        ({ l with packing := some { batch with builder } }, .error (Append.FormatError.toIo e))
      | (builder, .ok ()) =>
        ({ l with
          admitted := l.admitted + 1
          packing := some ⟨builder, batch.credits, batch.writes ++ [⟨id, data, permit⟩]⟩ },
          .ok ()) := by
  have h1 : checkedAdd id 1 = some (id + 1) := if_pos (by unfold Exhausted at hx; omega)
  have h2 : checkedAdd l.admitted 1 = some (l.admitted + 1) :=
    if_pos (by unfold Exhausted at hx; omega)
  unfold pack
  rw [hwin, hp]
  simp only [h1, h2]
  rfl

theorem Packs.pack_ok (h : l.Packs first next packed) (hwin : (permit.window.any fun slot =>
    !slot.matches data.payloadBytes) = false) {batch : Packing} (hp : l.packing = some batch)
    (hx : ¬ l.Exhausted id) {builder : Builder}
    (he : encode batch.builder (requestId l.epoch id head) = (builder, .ok ()))
    (hadds : batch.builder.Adds builder (requestId l.epoch id head) data.kind offset data.bytes
      data.payloadBytes) :
    ∃ l', l.pack id head permit data encode = (l', .ok ()) ∧ l'.imageBytes = l.imageBytes ∧
      l'.admitted = l.admitted + 1 ∧ l'.Packs first (id + 1)
        (packed ++ [⟨id, head, offset, data, l'.gathered data.payloadBytes⟩]) := by
  rw [pack_eq hwin hp hx, he]
  refine ⟨_, rfl, rfl, rfl, h.paused, h.epoch, ?_, ?_⟩
  · rw [length_append, length_singleton, ← add_assoc, ← h.admitted]
  · obtain ⟨done, rest, rfl, hd, ho⟩ := h.held
    rw [Opened, hp] at ho
    refine ⟨done, _, append_assoc _ _ _, hd, ?_, ?_, ?_⟩
    · obtain ⟨ds, hw, hds⟩ := ho.1.descriptors
      obtain ⟨d, hadd, hw'⟩ := hadds.wf ds hw
      refine ⟨⟨ds ++ [d], hw', ?_⟩, ?_, ?_⟩
      · rw [map_append, map_append, hds]
        simp [requested, Mutation.request, hadd.id, hadd.kind, hadd.offset, hadd.length]
      · rw [map_append, map_append, ho.1.writes]
        rfl
      · rw [flatMap_append, ← ho.1.payload]
        simp only [flatMap_cons, flatMap_nil, append_nil, gathered, Option.elim_some]
        rw [hadds.payloadBytes, slice_add, hadds.before, ← Nat.add_assoc, Nat.add_sub_cancel]
    · exact hadds.imageBytes.trans ho.2.1
    · exact le_of_eq hadds.lastSerial

theorem Packs.pack_error (h : l.Packs first next packed) (hwin : (permit.window.any fun slot =>
    !slot.matches data.payloadBytes) = false) {batch : Packing} (hp : l.packing = some batch)
    (hx : ¬ l.Exhausted id) {builder : Builder} {e : FormatError}
    (he : encode batch.builder (requestId l.epoch id head) = (builder, .error e))
    (hspares : batch.builder.Spares builder) :
    ∃ l' e, l.pack id head permit data encode = (l', .error e) ∧ l'.imageBytes = l.imageBytes ∧
      l'.admitted = l.admitted ∧ l'.Packs first next packed := by
  rw [pack_eq hwin hp hx, he]
  refine ⟨_, _, rfl, rfl, rfl, h.paused, h.epoch, h.admitted, ?_⟩
  obtain ⟨done, rest, rfl, hd, ho⟩ := h.held
  rw [Opened, hp] at ho
  refine ⟨done, rest, rfl, hd, ⟨?_, ho.1.writes, ?_⟩, ?_, ?_⟩
  · obtain ⟨ds, hw, hds⟩ := ho.1.descriptors
    exact ⟨ds, hspares.wf ds hw, hds⟩
  · simp only
    rw [hspares.payloadBytes, hspares.before]
    exact ho.1.payload
  · exact hspares.imageBytes.trans ho.2.1
  · exact le_trans (le_of_eq hspares.lastSerial) ho.2.2

end Pack

/-- A read or a flush goes out after everything packed, with that prefix as its boundary. -/
theorem Packs.enqueue (h : l.Packs first next packed) (id : Nat) (operation : Operation) :
    ∃ l' r, l.enqueue delivering id operation = (l', r) ∧ l'.Packs first next packed ∧
      SameImage l l' := by
  unfold Local.enqueue
  split
  · exact ⟨l, _, rfl, h, ⟨rfl, rfl, rfl⟩⟩
  · rw [if_neg (by rw [h.paused]; simp)]
    obtain ⟨l₁, hs, h₁, hn, hi, hd⟩ := h.sealBatch
    simp only [hs, send_delivering]
    refine ⟨_, _, rfl, ⟨h₁.paused, h₁.epoch, h₁.admitted, packed, [], (append_nil _).symm,
      hd.io h.admitted, ?_⟩, hi.shared, hi.imageBytes, hi.admitted⟩
    simp only [Opened, hn]

end Invariant

/-! ## Sessions -/

/-- The calls of the queue thread. -/
inductive Call
  | admission (answers : Answers) (kind : Kind)
  | gather (id : Nat) (head : QueueHead) (offset length : Nat) (outcome : Builder.Gathered)
  | zero (id : Nat) (head : QueueHead) (offset length : Nat)
  | sealBatch
  | enqueue (id : Nat) (operation : Operation)

/-- An image and its caller: the write admitted by the last call, the first id it has not used, and
the mutations whose pack has returned successfully. -/
structure Session where
  image : Local
  granted : Option (Nat × Permit)
  next : Nat
  packed : List Mutation

namespace Session

variable [Digest]

omit [Digest] in
/-- The outcome of a pack as the caller sees it. -/
def record (s : Session) (id : Nat) (head : QueueHead) (offset : Nat) (data : Written) :
    Local × Except IoError Unit → Session × Except IoError Unit
  | (image, .ok ()) =>
    (⟨image, none, id + 1, s.packed ++ [⟨id, head, offset, data, image.gathered data.payloadBytes⟩]⟩,
      .ok ())
  | (image, .error e) => ({ s with image, granted := none }, .error e)

/-- One call while the mailbox delivers. -/
def call (s : Session) : Call → Session × Except IoError Unit
  | .admission answers kind =>
    match kind, s.image.admitKind delivering answers kind with
    | .write bytes, (image, .ok (.ready permit)) =>
      ({ s with image, granted := some (bytes, permit) }, .ok ())
    | _, (image, .ok _) => ({ s with image }, .ok ())
    | _, (image, .error e) => ({ s with image }, .error e)
  | .gather id head offset length outcome =>
    match s.granted with
    | none => (s, .error ⟨.other, "no permit"⟩)
    | some (_, permit) => s.record id head offset (.data length)
        (s.image.gather id head offset length permit outcome)
  | .zero id head offset length =>
    match s.granted with
    | none => (s, .error ⟨.other, "no permit"⟩)
    | some (_, permit) => s.record id head offset (.zero length)
        (s.image.zero id head offset length permit)
  | .sealBatch =>
    let (image, result) := s.image.sealBatch delivering
    ({ s with image }, result)
  | .enqueue id operation =>
    let (image, result) := s.image.enqueue delivering id operation
    ({ s with image }, result)

omit [Digest] in
/-- The next call packs the admitted write, with the admitted size, a new id and a valid range. -/
def Packable (s : Session) (id offset : Nat) (data : Written) : Prop :=
  s.granted.map Prod.fst = some data.payloadBytes ∧ s.next ≤ id ∧
    validRange offset data.bytes s.image.imageBytes = true ∧ data.payloadBytes ≤ MAX_REQUEST_BYTES

omit [Digest] in
/-- How the queue thread uses the image: an admitted write is packed by the next call. -/
def Allows (s : Session) : Call → Prop
  | .gather id _ offset length _ => s.Packable id offset (.data length)
  | .zero id _ offset length => s.Packable id offset (.zero length)
  | .admission .. | .sealBatch | .enqueue .. => s.granted = none

/-- The states of a session on a log that starts to serve. -/
inductive Reachable (shared : Shared) (inputWake : Bool) (log : Append.Log) : Session → Prop
  | start : Reachable shared inputWake log ⟨Local.start shared inputWake log, none, 0, []⟩
  | call {s : Session} {c : Call} (hs : Reachable shared inputWake log s) (hc : s.Allows c) :
      Reachable shared inputWake log (s.call c).1

/-- The invariant of a session. -/
structure Inv (first imageBytes : Nat) (s : Session) : Prop where
  packs : s.image.Packs first s.next s.packed
  imageBytes : s.image.imageBytes = imageBytes
  granted : ∀ bytes permit, s.granted = some (bytes, permit) →
    (permit.window.any fun slot => !slot.matches bytes) = false ∧
      (bytes ≤ MAX_REQUEST_BYTES → s.image.Room bytes)

section Calls

variable {s : Session} {first imageBytes id offset : Nat} {head : QueueHead} {data : Written}

theorem Inv.room (h : s.Inv first imageBytes) (hc : s.Packable id offset data) :
    s.image.Room data.payloadBytes := by
  obtain ⟨hg, -, -, hle⟩ := hc
  obtain ⟨⟨bytes, permit⟩, hg, hb⟩ := Option.map_eq_some_iff.1 hg
  obtain rfl : bytes = data.payloadBytes := hb
  exact (h.granted _ permit hg).2 hle

/-- An encoder that fails exactly when `failed` says so, and then spares the batch. -/
def Encodes (encode : Builder → RequestId → Builder × Except FormatError Unit)
    (data : Written) (offset : Nat) (failed : Bool) : Prop :=
  ∀ (b : Builder) (rid : RequestId), rid.Fits →
    b.admits rid offset data.bytes data.payloadBytes = .ok () →
      (failed = false ∧ (encode b rid).2 = .ok () ∧
        b.Adds (encode b rid).1 rid data.kind offset data.bytes data.payloadBytes) ∨
      (failed = true ∧ (∃ e, (encode b rid).2 = .error e) ∧ b.Spares (encode b rid).1)

theorem encodes_write (offset length : Nat) (outcome : Builder.Gathered) :
    Encodes (fun b rid => b.write rid offset length outcome) (.data length) offset
      outcome.failed := by
  intro b rid hf ha
  cases hg : outcome.failed with
  | false => exact Or.inl ⟨rfl, Builder.write_adds hf ha hg⟩
  | true => exact Or.inr ⟨rfl, Builder.write_spares ha hg⟩

theorem encodes_zero (offset length : Nat) :
    Encodes (fun b rid => b.zero rid offset length) (.zero length) offset false :=
  fun _ _ hf ha => Or.inl ⟨rfl, Builder.zero_adds hf ha⟩

/-- The outcome of a pack: it succeeds exactly if the gather does, short of exhausted counters. -/
structure Outcome (first : Nat) (s : Session) (id : Nat) (head : QueueHead) (offset : Nat)
    (data : Written) (failed : Bool) (l : Local) (result : Except IoError Unit) : Prop where
  imageBytes : l.imageBytes = s.image.imageBytes
  succeeds : ¬ s.image.Exhausted id → (result = .ok () ↔ failed = false)
  ok : result = .ok () → l.admitted = s.image.admitted + 1 ∧ l.Packs first (id + 1)
    (s.packed ++ [⟨id, head, offset, data, l.gathered data.payloadBytes⟩])
  error : ∀ e, result = .error e → l.admitted = s.image.admitted ∧ l.Packs first s.next s.packed

theorem Inv.outcome (h : s.Inv first imageBytes) (hc : s.Packable id offset data)
    {bytes : Nat} {permit : Permit} (hg : s.granted = some (bytes, permit)) (head : QueueHead)
    {encode : Builder → RequestId → Builder × Except FormatError Unit} {failed : Bool}
    (he : Encodes encode data offset failed) :
    Outcome first s id head offset data failed (s.image.pack id head permit data encode).1
      (s.image.pack id head permit data encode).2 := by
  obtain rfl : bytes = data.payloadBytes := by
    have := hc.1
    rw [hg] at this
    exact Option.some.inj this
  have hwin := (h.granted _ _ hg).1
  by_cases hx : s.image.Exhausted id
  · obtain ⟨e, hpe⟩ := pack_of_exhausted hx head permit data encode
    rw [hpe]
    exact ⟨rfl, fun hn => absurd hx hn, nofun, fun _ _ => ⟨rfl, h.packs⟩⟩
  · obtain ⟨batch, hp, hadm⟩ := h.packs.admits hc.2.1 hc.2.2.1 (h.room hc) head
    have hfits : (requestId s.image.epoch id head).Fits :=
      requestId_fits (by unfold Exhausted at hx; omega) h.packs.epoch.2 head
    rcases he _ _ hfits hadm with ⟨hf, hok, hadds⟩ | ⟨hf, ⟨e, herr⟩, hspares⟩
    · have heq : encode batch.builder (requestId s.image.epoch id head) = (_, .ok ()) :=
        Prod.ext rfl hok
      obtain ⟨l', hpe, hi, ha, hpk⟩ := h.packs.pack_ok hwin hp hx heq hadds
      rw [hpe]
      exact ⟨hi, fun _ => ⟨fun _ => hf, fun _ => rfl⟩, fun _ => ⟨ha, hpk⟩, nofun⟩
    · have heq : encode batch.builder (requestId s.image.epoch id head) = (_, .error e) :=
        Prod.ext rfl herr
      obtain ⟨l', e', hpe, hi, ha, hpk⟩ := h.packs.pack_error hwin hp hx heq hspares
      rw [hpe]
      refine ⟨hi, fun _ => ⟨nofun, fun hf' => ?_⟩, nofun, fun _ _ => ⟨ha, hpk⟩⟩
      rw [hf] at hf'
      cases hf'

theorem Inv.gather (h : s.Inv first imageBytes) {length : Nat}
    (hc : s.Packable id offset (.data length)) (head : QueueHead) (outcome : Builder.Gathered) :
    ∃ l result, s.call (.gather id head offset length outcome) =
        s.record id head offset (.data length) (l, result) ∧
      Outcome first s id head offset (.data length) outcome.failed l result := by
  obtain ⟨⟨bytes, permit⟩, hg, -⟩ := Option.map_eq_some_iff.1 hc.1
  refine ⟨_, _, ?_, h.outcome hc hg head (encodes_write offset length outcome)⟩
  simp only [call, hg]
  rfl

theorem Inv.zero (h : s.Inv first imageBytes) {length : Nat}
    (hc : s.Packable id offset (.zero length)) (head : QueueHead) :
    ∃ l result, s.call (.zero id head offset length) =
        s.record id head offset (.zero length) (l, result) ∧
      Outcome first s id head offset (.zero length) false l result := by
  obtain ⟨⟨bytes, permit⟩, hg, -⟩ := Option.map_eq_some_iff.1 hc.1
  refine ⟨_, _, ?_, h.outcome hc hg head (encodes_zero offset length)⟩
  simp only [call, hg]
  rfl

theorem Inv.record (h : s.Inv first imageBytes) {failed : Bool} {l : Local}
    {result : Except IoError Unit} (ho : Outcome first s id head offset data failed l result) :
    (s.record id head offset data (l, result)).1.Inv first imageBytes := by
  cases result with
  | ok u => exact ⟨(ho.ok rfl).2, ho.imageBytes.trans h.imageBytes, nofun⟩
  | error e => exact ⟨(ho.error e rfl).2, ho.imageBytes.trans h.imageBytes, nofun⟩

theorem Inv.call (h : s.Inv first imageBytes) {c : Call} (hc : s.Allows c) :
    (s.call c).1.Inv first imageBytes := by
  cases c with
  | admission answers kind =>
    have hgr : s.granted = none := hc
    obtain ⟨l, r, ha, hp, hi, hw⟩ := h.packs.admission answers kind
    have himage := hi.imageBytes.trans h.imageBytes
    have plain : ({ s with image := l } : Session).Inv first imageBytes :=
      ⟨hp, himage, by rw [show ({ s with image := l } : Session).granted = none from hgr]; nofun⟩
    simp only [Session.call, ha]
    split
    · next heq =>
      cases heq
      refine ⟨hp, himage, ?_⟩
      rintro _ _ ⟨⟩
      exact hw _ _ rfl rfl
    · next heq => cases heq; exact plain
    · next heq => cases heq; exact plain
  | gather id head offset length outcome =>
    obtain ⟨l, result, hcall, ho⟩ := h.gather hc head outcome
    rw [hcall]
    exact h.record ho
  | zero id head offset length =>
    obtain ⟨l, result, hcall, ho⟩ := h.zero hc head
    rw [hcall]
    exact h.record ho
  | sealBatch =>
    have hgr : s.granted = none := hc
    obtain ⟨l, hs, hp, -, hi, -⟩ := h.packs.sealBatch
    simp only [Session.call, hs]
    exact ⟨hp, hi.imageBytes.trans h.imageBytes, by simp only [hgr]; nofun⟩
  | enqueue id operation =>
    have hgr : s.granted = none := hc
    obtain ⟨l, r, hs, hp, hi⟩ := h.packs.enqueue id operation
    simp only [Session.call, hs]
    exact ⟨hp, hi.imageBytes.trans h.imageBytes, by simp only [hgr]; nofun⟩

end Calls

theorem epoch_of_starts {log : Append.Log} (h : log.Starts) :
    log.current.header.epoch ≠ 0 ∧ log.current.header.epoch < U64 := by
  obtain ⟨st, rfl, hq⟩ := h.quiet
  have hw := hq.inv.active_accepts.2
  rw [hq.inv.current]
  exact ⟨(Append.SegmentHeader.validate_eq_ok.1 hw.valid).2.1.1, hw.fits.epoch⟩

theorem Reachable.inv {shared : Shared} {inputWake : Bool} {log : Append.Log} {s : Session}
    (hl : log.Starts) (hs : Reachable shared inputWake log s) :
    s.Inv log.published log.config.imageBytes := by
  induction hs with
  | start =>
    exact ⟨⟨rfl, epoch_of_starts hl, rfl, [], [], rfl, .nil, rfl⟩, rfl, nofun⟩
  | call _ hc ih => exact ih.call hc

end Session

/-- **Admitted writes always pack.** In every session on a serving log, the gather or zero that
follows an admission finds a batch with room, and short of exhausted counters it fails only if the
guest's gather does. The admitted counter grows by one with each packed mutation and not with a failed
one. What was sent, and then the open batch, hold the packed mutations exactly once in packing order,
and the boundary of each read or flush is the starting prefix plus the mutations sent before it. -/
theorem admitted_writes_pack [Digest] {shared : Shared} {inputWake : Bool} {log : Append.Log}
    {s : Session} (hl : log.Starts) (hs : s.Reachable shared inputWake log) :
    (∀ id head offset length outcome, s.Allows (.gather id head offset length outcome) →
      s.image.Room length ∧
      (¬ s.image.Exhausted id →
        ((s.call (.gather id head offset length outcome)).2 = .ok () ↔ outcome.failed = false)) ∧
      ((s.call (.gather id head offset length outcome)).2 = .ok () →
        (s.call (.gather id head offset length outcome)).1.image.admitted = s.image.admitted + 1) ∧
      ∀ e, (s.call (.gather id head offset length outcome)).2 = .error e →
        (s.call (.gather id head offset length outcome)).1.image.admitted = s.image.admitted) ∧
    (∀ id head offset length, s.Allows (.zero id head offset length) →
      s.image.Room 0 ∧
      (¬ s.image.Exhausted id → (s.call (.zero id head offset length)).2 = .ok ()) ∧
      ((s.call (.zero id head offset length)).2 = .ok () →
        (s.call (.zero id head offset length)).1.image.admitted = s.image.admitted + 1) ∧
      ∀ e, (s.call (.zero id head offset length)).2 = .error e →
        (s.call (.zero id head offset length)).1.image.admitted = s.image.admitted) ∧
    s.image.admitted = log.published + s.packed.length ∧
    (∃ done rest, s.packed = done ++ rest ∧
      Delivered log.published s.image.epoch s.image.sent done ∧ s.image.Opened s.next rest) ∧
    ∀ before after i, s.image.sent = before ++ .io i :: after →
      i.boundary = log.published + (before.flatMap Command.writes).length := by
  have hinv := hs.inv hl
  have recorded : ∀ {id : Nat} {head : QueueHead} {offset : Nat} {data : Written} {failed : Bool}
      {l : Local} {result : Except IoError Unit},
      Session.Outcome log.published s id head offset data failed l result →
      (s.record id head offset data (l, result)).2 = result ∧
      (result = .ok () → (s.record id head offset data (l, result)).1.image.admitted =
        s.image.admitted + 1) ∧
      ∀ e, result = .error e → (s.record id head offset data (l, result)).1.image.admitted =
        s.image.admitted := by
    intro id head offset data failed l result ho
    cases result with
    | ok u => exact ⟨rfl, fun h => (ho.ok h).1, nofun⟩
    | error e => exact ⟨rfl, nofun, fun e' h => (ho.error e' h).1⟩
  refine ⟨?_, ?_, hinv.packs.admitted, hinv.packs.held, ?_⟩
  · intro id head offset length outcome hc
    obtain ⟨l, result, hcall, ho⟩ := hinv.gather hc head outcome
    obtain ⟨h1, h2, h3⟩ := recorded ho
    rw [hcall, h1]
    exact ⟨hinv.room hc, ho.succeeds, h2, h3⟩
  · intro id head offset length hc
    obtain ⟨l, result, hcall, ho⟩ := hinv.zero hc head
    obtain ⟨h1, h2, h3⟩ := recorded ho
    rw [hcall, h1]
    exact ⟨hinv.room hc, fun hx => (ho.succeeds hx).2 rfl, h2, h3⟩
  · obtain ⟨done, rest, -, hd, -⟩ := hinv.packs.held
    exact fun before after i hi => hd.boundary hi

/-- A ZERO of the one block of a new image is admitted and then packed. -/
theorem admitted_writes_pack_zero : let _ := nullDigest
    ∃ (log : Append.Log) (s : Session), log.Starts ∧ s.Reachable ⟨false, false⟩ true log ∧
      s.Allows (.zero 0 ⟨0, 0⟩ 0 BLOCK_SIZE) ∧
      (s.call (.zero 0 ⟨0, 0⟩ 0 BLOCK_SIZE)).2 = .ok () := by
  intro _
  obtain ⟨log, hlog⟩ : ∃ l, Append.Log.create ⟨⟨List.replicate 16 1, rfl⟩, ⟨List.replicate 16 2, rfl⟩,
      4096, 1060864⟩ ⟨1060864, 126⟩ none ⟨none, 1060864⟩ = .ok l := ⟨_, rfl⟩
  have hstarts : log.Starts := .created ⟨by decide, by decide⟩ hlog
  obtain ⟨-, hconfig, -⟩ := Append.Log.create_quiet ⟨by decide, by decide⟩ hlog
  have hnew : Builder.new log.config.imageBytes 0 =
      .ok ⟨zeros (BLOCK_SIZE + 0), log.config.imageBytes, 0, 0, 0⟩ := by
    rw [hconfig]
    rfl
  let answers : Answers := ⟨false, true, true, true, true, .ok none, true, true⟩
  let image := Local.start ⟨false, false⟩ true log
  let opened : Local := { image with
    packing := some ⟨⟨zeros (BLOCK_SIZE + 0), log.config.imageBytes, 0, 0, 0⟩, BLOCK_SIZE + 0, []⟩ }
  have hadmit : image.admitKind delivering answers (.write 0) = (opened, .ok (.ready ⟨none⟩)) := by
    simp [Local.admitKind, image, Local.start, sealIf, Kind.isWrite, Shared.admitKind,
      Shared.reserveWithEntry, answers, admitWrite, openBatch, hnew, Builder.allocationBytes, opened]
  have hcall : Session.call ⟨image, none, 0, []⟩ (.admission answers (.write 0)) =
      (⟨opened, some (0, ⟨none⟩), 0, []⟩, .ok ()) := by
    simp only [Session.call, hadmit]
  have hr : (⟨opened, some (0, ⟨none⟩), 0, []⟩ : Session).Reachable ⟨false, false⟩ true log := by
    have h : Session.Reachable ⟨false, false⟩ true log
        (Session.call ⟨image, none, 0, []⟩ (.admission answers (.write 0))).1 := .call .start rfl
    rwa [hcall] at h
  have hallows : (⟨opened, some (0, ⟨none⟩), 0, []⟩ : Session).Allows
      (.zero 0 ⟨0, 0⟩ 0 BLOCK_SIZE) := by
    refine ⟨rfl, Nat.le_refl _, ?_, Nat.zero_le _⟩
    show validRange 0 BLOCK_SIZE log.config.imageBytes = true
    rw [hconfig]
    rfl
  refine ⟨log, _, hstarts, hr, hallows, ?_⟩
  refine ((admitted_writes_pack hstarts hr).2.1 _ _ _ _ hallows).2.1 ?_
  have hpub : log.published = 0 := by
    cases hlog
    rfl
  rintro (h | h)
  · exact absurd h (by decide)
  · change U64 ≤ log.published + 1 at h
    rw [hpub] at h
    exact absurd h (by decide)

end Local

end Cas.Daemon
