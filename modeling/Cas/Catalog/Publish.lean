import Cas.Catalog.Refine

/-!
# Publishing changes (`catalog.rs`)

A change is prepared against the current contents and published by replacing the canonical file. A
preparation is good for the owner and the generation it was made for, and a publication makes the
next generation, so what is published is always a change of the current contents.
-/

namespace Cas

/-- `Catalog`, with the identity of its owner. -/
structure Catalog where
  owner : Nat
  contents : Catalog.Contents
  failed : Bool

end Cas

namespace Cas.Catalog

structure Prepared where
  owner : Nat
  generation : Nat
  contents : Contents

def healthy (c : Catalog) : Except IoError Unit :=
  Except.ensure (c.failed = false) ⟨.other, "catalog failed; explicit recovery required"⟩

/-- What becomes of a write of the canonical file: a failed one may have replaced it or not. -/
inductive Write
  | done
  | failed (error : IoError) (replaced : Bool)

/-- The checks of `Catalog::publish`. -/
def checkPublish (c : Catalog) (p : Prepared) : Except IoError Unit := do
  c.healthy
  require (c.owner = p.owner ∧ c.contents.generation = p.generation)
    "stale or foreign catalog preparation"

def publish (c : Catalog) (p : Prepared) (write : Write) : Catalog × Except IoError Unit :=
  match c.checkPublish p, write with
  | .error e, _ => (c, .error e)
  | .ok (), .failed e _ => ({ c with failed := true }, .error e)
  | .ok (), .done => ({ c with contents := p.contents }, .ok ())

variable [Digest]

def prepare (memory : Nat → Bool) (c : Catalog) (change : Change) : Except IoError Prepared := do
  c.healthy
  let contents ← c.contents.changed memory change
  return ⟨c.owner, c.contents.generation, contents⟩

/-! ## Runs -/

/-- The catalog, its canonical file, and the preparations not yet published. -/
structure World where
  catalog : Catalog
  file : Bytes
  prepared : List (Change × Prepared)

inductive Op
  | prepare (memory : Nat → Bool) (change : Change)
  | publish (index : Nat) (write : Write)
  | reopen (memory : Nat → Bool)

def Op.Fits : Op → Prop
  | .prepare _ change => change.Fits
  | .publish _ _ | .reopen _ => True

namespace World

/-- The canonical file after `publish`. -/
def written (w : World) (p : Prepared) (write : Write) : Bytes :=
  match w.catalog.checkPublish p, write with
  | .error _, _ => w.file
  | .ok (), .failed _ replaced => if replaced then p.contents.bytes else w.file
  | .ok (), .done => p.contents.bytes

/-- A failed catalog, and any other one, is reopened from its canonical file by another owner. -/
def step (store : Id) (w : World) : Op → World × Except IoError Unit
  | .prepare memory change =>
    match w.catalog.prepare memory change with
    | .ok p => ({ w with prepared := w.prepared ++ [(change, p)] }, .ok ())
    | .error e => (w, .error e)
  | .publish index write =>
    match w.prepared[index]? with
    | none => (w, .ok ())
    | some (_, p) =>
      ({ catalog := (w.catalog.publish p write).1
         file := w.written p write
         prepared := w.prepared.eraseIdx index }, (w.catalog.publish p write).2)
  | .reopen memory =>
    match Contents.read memory w.file store with
    | .ok c => ({ w with catalog := ⟨w.catalog.owner + 1, c, false⟩ }, .ok ())
    | .error e => (w, .error e)

def run (store : Id) (w : World) (ops : List Op) : World :=
  ops.foldl (fun w op => (w.step store op).1) w

/-- The catalog represents `m`, and a preparation of its owner for its generation represents a change
of `m`. -/
structure Inv (store : Id) (m : Membership) (w : World) : Prop where
  contents : w.catalog.contents.Represents store m
  file : ∃ (c : Contents) (m' : Membership), w.file = c.bytes ∧ c.Represents store m'
  represents : ∀ x ∈ w.prepared, ∃ m', x.2.contents.Represents store m'
  owner : ∀ x ∈ w.prepared, x.2.owner ≤ w.catalog.owner
  generation : ∀ x ∈ w.prepared, x.2.owner = w.catalog.owner → x.2.generation ≤ m.generation
  current : ∀ x ∈ w.prepared, x.2.owner = w.catalog.owner → x.2.generation = m.generation →
    ∃ m', m.change x.1 = .ok m' ∧ x.2.contents.Represents store m'

variable {store : Id} {m : Membership} {w : World}

namespace Inv

variable (h : w.Inv store m)

include h

theorem prepare {memory : Nat → Bool} {change : Change} (hf : change.Fits) {p : Prepared}
    (hp : w.catalog.prepare memory change = .ok p) :
    Inv store m { w with prepared := w.prepared ++ [(change, p)] } := by
  obtain ⟨_, -, hp⟩ := Except.bind_eq_ok.1 hp
  obtain ⟨c', hc', hp⟩ := Except.bind_eq_ok.1 hp
  obtain rfl := Except.ok.inj hp
  obtain ⟨m', hm, hr⟩ := h.contents.of_changed hf hc'
  have hgen : w.catalog.contents.generation = m.generation := h.contents.holds.generation_eq
  have hnew : ∀ {P : Change × Prepared → Prop}, (∀ x ∈ w.prepared, P x) →
      P (change, ⟨w.catalog.owner, w.catalog.contents.generation, c'⟩) →
      ∀ x ∈ w.prepared ++ [(change, ⟨w.catalog.owner, w.catalog.contents.generation, c'⟩)], P x := by
    intro P hold hp x hx
    rcases List.mem_append.1 hx with hx | hx
    · exact hold x hx
    · rw [List.mem_singleton.1 hx]
      exact hp
  exact ⟨h.contents, h.file, hnew h.represents ⟨m', hr⟩, hnew h.owner (le_refl _),
    hnew h.generation fun _ => hgen.le, hnew h.current fun _ _ => ⟨m', hm, hr⟩⟩

/-- What passes the checks of a publication was prepared for the current contents. -/
theorem of_checkPublish {change : Change} {p : Prepared} (hx : (change, p) ∈ w.prepared) {u : Unit}
    (hc : w.catalog.checkPublish p = .ok u) :
    ∃ m', m.change change = .ok m' ∧ p.contents.Represents store m' := by
  obtain ⟨_, -, hc⟩ := Except.bind_eq_ok.1 hc
  obtain ⟨ho, hg⟩ := require_eq_ok.1 hc
  exact h.current _ hx ho.symm (hg.symm.trans h.contents.holds.generation_eq)

/-- A refused publication changes nothing but the list of preparations. -/
theorem erase (i : Nat) : Inv store m { w with prepared := w.prepared.eraseIdx i } :=
  have hsub : ∀ x, x ∈ w.prepared.eraseIdx i → x ∈ w.prepared := fun _ => List.mem_of_mem_eraseIdx
  ⟨h.contents, h.file, fun x hx => h.represents x (hsub x hx), fun x hx => h.owner x (hsub x hx),
    fun x hx => h.generation x (hsub x hx), fun x hx => h.current x (hsub x hx)⟩

/-- The next contents: every other preparation is of an earlier generation now. -/
theorem advance {m' : Membership} {c : Contents} (hg : m'.generation = m.generation + 1)
    (hc : c.Represents store m') :
    Inv store m' { w with catalog := { w.catalog with contents := c }, file := c.bytes } :=
  ⟨hc, ⟨c, m', rfl, hc⟩, h.represents, h.owner,
    fun x hx ho => (h.generation x hx ho).trans (by omega),
    fun x hx ho heq => absurd (h.generation x hx ho) (by omega)⟩

/-- A catalog of another owner, read from the canonical file. -/
theorem reopen {c : Contents} {m' : Membership} (hc : c.Represents store m') :
    Inv store m' { w with catalog := ⟨w.catalog.owner + 1, c, false⟩ } :=
  ⟨hc, h.file, h.represents, fun x hx => (h.owner x hx).trans (Nat.le_succ _),
    fun x hx ho => absurd (h.owner x hx) (by dsimp only at ho; omega),
    fun x hx ho => absurd (h.owner x hx) (by dsimp only at ho; omega)⟩

/-- One operation keeps the invariant, for the map or a changed one. -/
theorem step {op : Op} (hf : op.Fits) : ∃ m', Inv store m' (w.step store op).1 := by
  cases op with
  | prepare memory change =>
    simp only [World.step]
    cases hp : w.catalog.prepare memory change with
    | ok p => exact ⟨m, h.prepare hf hp⟩
    | error e => exact ⟨m, h⟩
  | publish index write =>
    simp only [World.step]
    cases hx : w.prepared[index]? with
    | none => exact ⟨m, h⟩
    | some x =>
      obtain ⟨change, p⟩ := x
      have hmem := List.mem_of_getElem? hx
      simp only [Catalog.publish, written]
      cases hc : w.catalog.checkPublish p with
      | error e => exact ⟨m, h.erase index⟩
      | ok u =>
        obtain ⟨m', hm, hr⟩ := h.of_checkPublish hmem hc
        cases write with
        | failed e replaced =>
          have herase := h.erase index
          refine ⟨m, h.contents, ?_, herase.represents, herase.owner, herase.generation,
            herase.current⟩
          cases replaced with
          | true => exact ⟨p.contents, m', rfl, hr⟩
          | false => exact h.file
        | done => exact ⟨m', (h.erase index).advance (Membership.generation_of_change hm) hr⟩
  | reopen memory =>
    simp only [World.step]
    cases hr : Contents.read memory w.file store with
    | error e => exact ⟨m, h⟩
    | ok c =>
      obtain ⟨c', m', hfile, hc'⟩ := h.file
      obtain rfl : c = c' := hc'.holds.eq_of_read (hfile ▸ hr)
      exact ⟨m', h.reopen hc'⟩

end Inv

theorem Inv.run : ∀ {ops : List Op} {m : Membership} {w : World}, w.Inv store m →
    (∀ op ∈ ops, op.Fits) → ∃ m', (w.run store ops).Inv store m'
  | [], m, _, h, _ => ⟨m, h⟩
  | op :: ops, _, _, h, hf => by
    obtain ⟨m₁, h₁⟩ := h.step (hf op (by simp))
    exact @Inv.run ops _ _ h₁ fun x hx => hf x (List.mem_cons_of_mem op hx)

theorem contents_of_error {op : Op} {e : IoError} (h : (w.step store op).2 = .error e) :
    (w.step store op).1.catalog.contents = w.catalog.contents := by
  cases op with
  | prepare memory change =>
    simp only [step] at h ⊢
    cases hp : w.catalog.prepare memory change with
    | ok p => rfl
    | error e => rfl
  | publish index write =>
    simp only [step] at h ⊢
    cases hx : w.prepared[index]? with
    | none => rfl
    | some x =>
      rw [hx] at h
      simp only [Catalog.publish] at h ⊢
      cases hc : w.catalog.checkPublish x.2 with
      | error e => rfl
      | ok u =>
        rw [hc] at h
        cases write with
        | failed e replaced => rfl
        | done => cases h
  | reopen memory =>
    simp only [step] at h ⊢
    cases hr : Contents.read memory w.file store with
    | error e => rfl
    | ok c =>
      rw [hr] at h
      cases h

/-- The preparation of a healthy catalog changes its contents. -/
theorem prepare_eq (hw : w.catalog.failed = false) (memory : Nat → Bool) (change : Change) :
    w.catalog.prepare memory change = do
      let contents ← w.catalog.contents.changed memory change
      return ⟨w.catalog.owner, w.catalog.contents.generation, contents⟩ := by
  rw [Catalog.prepare, Catalog.healthy, Except.ensure_of hw]
  rfl

omit [Digest] in
theorem kind_of_exhausted {memory : Nat → Bool} {generation count : Nat} {e : IoError}
    (h : Contents.Exhausted memory generation count e) : e.kind ≠ .alreadyExists ∧ e.kind ≠ .notFound := by
  cases h with
  | generation _ => exact ⟨nofun, nofun⟩
  | denied hd => cases hd <;> exact ⟨nofun, nofun⟩

namespace Inv

variable (h : w.Inv store m) (hw : w.catalog.failed = false)

include h hw

theorem prepare_refused {change : Change} (hv : change.Valid store) {kind : ErrorKind}
    (hm : m.change change = .error kind) (memory : Nat → Bool) :
    ∃ message, w.catalog.prepare memory change = .error ⟨kind, message⟩ := by
  obtain ⟨message, hc⟩ := h.contents.changed_refused hv hm memory
  refine ⟨message, ?_⟩
  rw [prepare_eq hw, hc]
  rfl

theorem prepare_allowed {change : Change} (hv : change.Valid store) {m' : Membership}
    (hm : m.change change = .ok m') (memory : Nat → Bool) :
    (∃ p, w.catalog.prepare memory change = .ok p ∧ p.contents.Represents store m' ∧
        w.catalog.publish p .done = ({ w.catalog with contents := p.contents }, .ok ())) ∨
      ∃ e, w.catalog.prepare memory change = .error e ∧ Contents.Exhausted memory m.generation
        (change.count w.catalog.contents.entries.length) e := by
  rw [prepare_eq hw]
  rcases h.contents.changed_allowed hv hm memory with ⟨c, hc, hr⟩ | ⟨e, he, hex⟩
  · refine Or.inl ⟨⟨w.catalog.owner, w.catalog.contents.generation, c⟩, by rw [hc]; rfl, hr, ?_⟩
    have hcheck : w.catalog.checkPublish ⟨w.catalog.owner, w.catalog.contents.generation, c⟩ = .ok () :=
      Except.bind_eq_ok.2 ⟨(), Except.ensure_of hw, require_eq_ok.2 ⟨rfl, rfl⟩⟩
    unfold Catalog.publish
    rw [hcheck]
  · exact Or.inr ⟨e, by rw [he]; rfl, hex⟩

/-- A valid change is refused with the kind that the map gives, and with no other of the two. -/
theorem prepare_error_iff (change : Change) (hv : change.Valid store) {kind : ErrorKind}
    (hk : kind = .alreadyExists ∨ kind = .notFound) (memory : Nat → Bool) :
    (∃ e, w.catalog.prepare memory change = .error e ∧ e.kind = kind) ↔
      m.change change = .error kind := by
  constructor
  · rintro ⟨e, he, rfl⟩
    cases hm : m.change change with
    | error kind =>
      obtain ⟨message, hp⟩ := h.prepare_refused hw hv hm memory
      rw [he] at hp
      rw [Except.error.inj hp]
    | ok m' =>
      rcases h.prepare_allowed hw hv hm memory with ⟨p, hp, -⟩ | ⟨e', he', hex⟩
      · rw [he] at hp
        cases hp
      · obtain rfl := Except.error.inj (he'.symm.trans he)
        obtain ⟨h1, h2⟩ := kind_of_exhausted hex
        exact absurd hk (by simp [h1, h2])
  · intro hm
    obtain ⟨message, hp⟩ := h.prepare_refused hw hv hm memory
    exact ⟨_, hp, rfl⟩

end Inv

end World

/-- **The catalog is a finite map in order of its IDs.** After any run of preparations, publications
and reopenings of a fresh catalog, its contents are the entries of a map. Changes are refused and
carried out as the map says, short of exhaustion; a refusal leaves the contents; and every contents
reads back from its bytes. -/
theorem refines_map {memory₀ : Nat → Bool} {store : Id} {es : List Entry} {c₀ : Contents}
    (hf : ∀ e ∈ es, e.kind.Fits) (h₀ : Contents.initial memory₀ store es = .ok c₀) (ops : List Op)
    (hops : ∀ op ∈ ops, op.Fits) :
    let w := World.run store ⟨⟨0, c₀, false⟩, c₀.bytes, []⟩ ops
    ∃ m : Membership,
      (w.catalog.contents.generation = m.generation ∧
        (w.catalog.contents.entries.map Entry.id).Pairwise (· < ·) ∧
        ∀ e, e ∈ w.catalog.contents.entries ↔ m.kind e.id = some e.kind) ∧
      (w.catalog.failed = false → ∀ memory,
        (∀ e : Entry, e.kind.Fits → e.validate store = .ok () →
          ((∃ x, w.catalog.prepare memory (.insert e) = .error x ∧ x.kind = .alreadyExists) ↔
            (m.kind e.id).isSome)) ∧
        (∀ id, (∃ x, w.catalog.prepare memory (.remove id) = .error x ∧ x.kind = .notFound) ↔
          m.kind id = none) ∧
        ∀ (change : Change) m', change.Valid store → m.change change = .ok m' →
          (∃ p, w.catalog.prepare memory change = .ok p ∧ p.contents.Represents store m' ∧
            w.catalog.publish p .done = ({ w.catalog with contents := p.contents }, .ok ())) ∨
          ∃ x, w.catalog.prepare memory change = .error x ∧ Contents.Exhausted memory m.generation
            (change.count w.catalog.contents.entries.length) x) ∧
      (∀ op x, (w.step store op).2 = .error x →
        (w.step store op).1.catalog.contents = w.catalog.contents) ∧
      (∀ i change p, w.prepared[i]? = some (change, p) →
        (w.step store (.publish i .done)).2 = .ok () → ∃ m', m.change change = .ok m' ∧
          (w.step store (.publish i .done)).1.catalog.contents.Represents store m') ∧
      ∀ c, (c = w.catalog.contents ∨ ∃ x ∈ w.prepared, c = x.2.contents) →
        ∀ memory : Nat → Bool, memory BLOCK_SIZE = true → memory c.bytes.length = true →
          Contents.read memory c.bytes store = .ok c := by
  have hr := represents_initial hf h₀
  have hinit : World.Inv store (.ofEntries 1 es) ⟨⟨0, c₀, false⟩, c₀.bytes, []⟩ :=
    ⟨hr, ⟨c₀, _, rfl, hr⟩, nofun, nofun, nofun, nofun⟩
  obtain ⟨m, h⟩ := hinit.run hops
  dsimp only
  generalize World.run store ⟨⟨0, c₀, false⟩, c₀.bytes, []⟩ ops = w at h
  refine ⟨m, ⟨h.contents.holds.generation_eq, h.contents.holds.sorted, h.contents.mem⟩, ?_, ?_, ?_, ?_⟩
  · intro hw memory
    refine ⟨?_, ?_, ?_⟩
    · intro e hf hv
      rw [h.prepare_error_iff hw (.insert e) ⟨hf, hv⟩ (Or.inl rfl) memory]
      simp only [Membership.change]
      split <;> simp [*]
    · intro id
      rw [h.prepare_error_iff hw (.remove id) trivial (Or.inr rfl) memory, ← Option.not_isSome_iff_eq_none]
      simp only [Membership.change]
      split <;> simp [*]
    · intro change m' hv hm
      exact h.prepare_allowed hw hv hm memory
  · exact fun op x => World.contents_of_error
  · intro i change p hx hok
    have hmem := List.mem_of_getElem? hx
    simp only [World.step, hx, Catalog.publish] at hok ⊢
    cases hc : w.catalog.checkPublish p with
    | error e =>
      rw [hc] at hok
      cases hok
    | ok u => exact h.of_checkPublish hmem hc
  · rintro c (rfl | ⟨x, hx, rfl⟩) memory hm hm'
    · exact h.contents.holds.read_eq hm hm'
    · obtain ⟨m', hr'⟩ := h.represents x hx
      exact hr'.holds.read_eq hm hm'

/-- An ID for concrete runs. -/
def sampleId (n : UInt8) : Id := ⟨List.replicate 16 n, rfl⟩

omit [Digest] in
/-- An image is inserted into an empty catalog and published. -/
theorem refines_map_one_image :
    let _ := nullDigest
    ∃ c₀, Contents.initial (fun _ => true) (sampleId 7) [] = .ok c₀ ∧
      ((World.run (sampleId 7) ⟨⟨0, c₀, false⟩, c₀.bytes, []⟩
        [.prepare (fun _ => true) (.insert ⟨sampleId 1, .image BLOCK_SIZE⟩),
          .publish 0 .done]).catalog.contents.entries.map Entry.id).Pairwise (· < ·) := by
  let _ := nullDigest
  have hempty : ∃ c₀, Contents.initial (fun _ => true) (sampleId 7) [] = .ok c₀ := by
    rcases @allocate_spec (fun _ => true) (sampleId 7) 1 0 (by decide) ⟨one_ne_zero, by decide⟩
      (by decide) with ⟨b, hb, -⟩ | ⟨e, -, hd⟩
    · exact ⟨_, Except.bind_eq_ok.2 ⟨b, hb, Except.bind_eq_ok.2 ⟨b, rfl, rfl⟩⟩⟩
    · cases hd with
      | length h => exact absurd h (by decide)
      | memory h => cases h
  obtain ⟨c₀, h₀⟩ := hempty
  obtain ⟨m, ⟨-, hs, -⟩, -⟩ := refines_map (fun e he => absurd he List.not_mem_nil) h₀
    [.prepare (fun _ => true) (.insert ⟨sampleId 1, .image BLOCK_SIZE⟩), .publish 0 .done] (by
      intro op hop
      simp only [List.mem_cons, List.not_mem_nil, or_false] at hop
      rcases hop with rfl | rfl
      · exact (by decide : BLOCK_SIZE < U64)
      · trivial)
  exact ⟨c₀, h₀, hs⟩

end Cas.Catalog
