import Cas.Encoding

/-!
# Segment names and their scan (`segments.rs`)

There is no counter file: the tickets handed out so far are read back from the names of the segment
files and of the archives that recovery made of them. `Tickets.«open»` accepts a set of directories
only if every name in them carries a ticket, and starts from the greatest one.
-/

namespace Cas.Tickets

open List

/-- `chunk_index::MAX_SEGMENT`. -/
abbrev MAX_SEGMENT : Nat := 2 ^ 48 - 1

/-- The name of a directory entry. -/
abbrev FileName := List Char

/-! ## Names -/

/-- The `width` low decimal digits of a number. -/
def digits : Nat → Nat → FileName
  | 0, _ => []
  | width + 1, n => digits width (n / 10) ++ [Nat.digitChar (n % 10)]

/-- The number that digits stand for. -/
def value (ds : FileName) : Nat := ds.foldl (fun v c => v * 10 + (c.toNat - '0'.toNat)) 0

def name (number : Nat) : FileName := "segment-".toList ++ (digits 20 number ++ ".v2".toList)

/-- Archives retain the original name at their start, so this reads the ticket of a live segment and
of an archive. -/
def number (name : FileName) : Option Nat :=
  if name.take 8 = "segment-".toList then
    let ds := (name.drop 8).take 20
    if ds.length = 20 ∧ ds.all Char.isDigit then
      if value ds < U64 ∧ value ds ≠ 0 then some (value ds) else none
    else none
  else none

/-- The subdirectory of archives. -/
def rejected : FileName := "rejected".toList

/-- The name `Directory::archive` gives to the bytes of a segment from `offset` on. -/
def archiveName (ticket offset attempt : Nat) : FileName :=
  name ticket ++ ("-from-".toList ++ (digits 20 offset ++ ("-".toList ++ Nat.toDigits 10 attempt)))

theorem digitChar_spec {d : Nat} (h : d < 10) :
    (Nat.digitChar d).isDigit = true ∧ (Nat.digitChar d).toNat - '0'.toNat = d := by
  interval_cases d <;> decide

theorem length_digits (width n : Nat) : (digits width n).length = width := by
  induction width generalizing n with
  | zero => rfl
  | succ width ih => simp [digits, ih]

theorem all_isDigit_digits (width n : Nat) : (digits width n).all Char.isDigit = true := by
  induction width generalizing n with
  | zero => rfl
  | succ width ih =>
    have hd := (digitChar_spec (Nat.mod_lt n (by decide : 10 > 0))).1
    simp [digits, ih, hd]

theorem value_digits (width n : Nat) : value (digits width n) = n % 10 ^ width := by
  induction width generalizing n with
  | zero => simp [digits, value, Nat.mod_one]
  | succ width ih =>
    have hd := (digitChar_spec (Nat.mod_lt n (by decide : 10 > 0))).2
    have hih := ih (n / 10)
    rw [value] at hih
    rw [value, digits, foldl_append, hih, foldl_cons, foldl_nil, hd, pow_succ',
      Nat.mod_mul, mul_comm, add_comm]

theorem number_eq_some {ds t : FileName} {n : Nat} (hlen : ds.length = 20)
    (hall : ds.all Char.isDigit = true) (hv : value ds = n) (hn : n < U64 ∧ n ≠ 0) :
    number ("segment-".toList ++ (ds ++ t)) = some n := by
  have h8 : "segment-".toList.length = 8 := rfl
  have htake : (("segment-".toList ++ (ds ++ t)).drop 8).take 20 = ds := by
    rw [drop_left' h8, take_left' hlen]
  rw [number, if_pos (take_left' h8)]
  simp only [htake, hlen, hall, hv, and_self, if_true, if_pos hn]

/-- The ticket is read back from a name, whatever follows it. -/
theorem number_name_append {n : Nat} (h0 : n ≠ 0) (hn : n ≤ MAX_SEGMENT) (s : FileName) :
    number (name n ++ s) = some n := by
  have hwidth : n < 10 ^ 20 := by unfold MAX_SEGMENT at hn; omega
  have hlt : n < U64 := by unfold MAX_SEGMENT at hn; unfold U64; omega
  have hvalue : value (digits 20 n) = n := by rw [value_digits, Nat.mod_eq_of_lt hwidth]
  have hsplit : name n ++ s = "segment-".toList ++ (digits 20 n ++ (".v2".toList ++ s)) := by
    unfold name
    rw [append_assoc, append_assoc]
  rw [hsplit]
  exact number_eq_some (length_digits 20 n) (all_isDigit_digits 20 n) hvalue ⟨hlt, h0⟩

theorem number_name {n : Nat} (h0 : n ≠ 0) (hn : n ≤ MAX_SEGMENT) : number (name n) = some n := by
  simpa using number_name_append h0 hn []

theorem number_archiveName {n : Nat} (h0 : n ≠ 0) (hn : n ≤ MAX_SEGMENT) (offset attempt : Nat) :
    number (archiveName n offset attempt) = some n :=
  number_name_append h0 hn _

theorem number_rejected : number rejected = none := by decide

theorem rejected_ne_name (n : Nat) : rejected ≠ name n := by
  intro h
  have hname : (name n).take 8 = "segment-".toList := take_left' rfl
  rw [← h] at hname
  exact absurd hname (by decide)

theorem ne_name {f : FileName} {m n : Nat} (hf : number f = some m) (hne : n ≠ m)
    (hn : n ≤ MAX_SEGMENT) : f ≠ name n := by
  rintro rfl
  by_cases h0 : n = 0
  · subst h0
    have hzero : number (name 0) = none := by decide
    rw [hzero] at hf
    cases hf
  · rw [number_name h0 hn] at hf
    exact hne (Option.some.inj hf)

/-! ## The scan -/

/-- `segments::Status`. -/
structure Status where
  highest : Nat
  failed : Bool
  deriving DecidableEq, Repr

structure Scan where
  highest : Nat
  live : List Nat

/-- `Scan::observe`. -/
def Scan.observe (s : Scan) (filename : FileName) : Except IoError (Nat × Scan) :=
  match (number filename).filter (· ≤ MAX_SEGMENT) with
  | some n => .ok (n, { s with highest := max s.highest n })
  | none => .error ⟨.invalidData, "invalid segment ticket"⟩

def Scan.archive (s : Scan) (filename : FileName) : Except IoError Scan := do
  let (n, s) ← s.observe filename
  require ((name n ++ "-from-".toList).isPrefixOf filename = true)
    "invalid segment archive filename/type"
  return s

/-- `Scan::archives`. -/
def Scan.archives (s : Scan) (files : List FileName) : Except IoError Scan :=
  files.foldlM Scan.archive s

def Scan.entry (archives : List FileName) (s : Scan) (filename : FileName) :
    Except IoError Scan :=
  if filename = rejected then s.archives archives
  else do
    let (n, s) ← s.observe filename
    require (filename = name n) "invalid live segment filename/type"
    require (n ∉ s.live) "duplicate live segment ticket"
    return { s with live := n :: s.live }

/-- `Scan::directory`: the entries of a directory, and those of its `rejected` subdirectory. -/
def Scan.directory (s : Scan) (d : List FileName × List FileName) : Except IoError Scan :=
  d.1.foldlM (Scan.entry d.2) s

/-- `Tickets::open`: the chunk directory, then the staging directory of every image. -/
def «open» (directories : List (List FileName × List FileName)) : Except IoError Status := do
  let s ← directories.foldlM Scan.directory ⟨0, []⟩
  return ⟨s.highest, false⟩

/-- The ticket that `Tickets::allocate` passes to `create`. -/
def Status.next (s : Status) : Except IoError Nat :=
  if s.failed then .error ⟨.other, "segment allocator failed; explicit recovery required"⟩
  else if s.highest + 1 < U64 ∧ s.highest + 1 ≤ MAX_SEGMENT then .ok (s.highest + 1)
  else .error ⟨.other, "segment tickets exhausted"⟩

/-- A ticket that some name of a directory carries. -/
def Shows (d : List FileName × List FileName) (n : Nat) : Prop :=
  (∃ f ∈ d.1, number f = some n) ∨ rejected ∈ d.1 ∧ ∃ f ∈ d.2, number f = some n

theorem Status.next_eq_ok {s : Status} {n : Nat} :
    s.next = .ok n ↔ s.failed = false ∧ n = s.highest + 1 ∧ n ≤ MAX_SEGMENT := by
  unfold next
  split
  · simp [*]
  · split
    · next hf h =>
      simp only [Except.ok.injEq, Bool.not_eq_true] at hf ⊢
      exact ⟨fun he => ⟨hf, he.symm, he ▸ h.2⟩, fun he => he.2.1.symm⟩
    · next hf h =>
      simp only [reduceCtorEq, false_iff, not_and]
      rintro - rfl hle
      exact h ⟨by unfold MAX_SEGMENT at hle; unfold U64; omega, hle⟩

namespace Scan

variable {s s' : Scan}

theorem observe_eq_ok {f : FileName} {n : Nat} (h : s.observe f = .ok (n, s')) :
    number f = some n ∧ n ≤ MAX_SEGMENT ∧ s'.highest = max s.highest n := by
  unfold observe at h
  split at h
  · next k hk =>
    obtain ⟨rfl, rfl⟩ := Prod.mk.inj (Except.ok.inj h)
    obtain ⟨hn, hle⟩ := Option.filter_eq_some_iff.1 hk
    exact ⟨hn, of_decide_eq_true hle, rfl⟩
  · cases h

/-- One look at a set of tickets: the maximum grows to cover them, and is one of them if it grew. -/
def Covers (s s' : Scan) (P : Nat → Prop) : Prop :=
  s.highest ≤ s'.highest ∧ (∀ n, P n → n ≤ s'.highest) ∧ (s'.highest = s.highest ∨ P s'.highest)

theorem Covers.trans {P Q R : Nat → Prop} {s'' : Scan} (h : Covers s s' P) (h' : Covers s' s'' Q)
    (hR : ∀ n, R n ↔ P n ∨ Q n) : Covers s s'' R := by
  obtain ⟨h1, h2, h3⟩ := h
  obtain ⟨h1', h2', h3'⟩ := h'
  refine ⟨h1.trans h1', ?_, ?_⟩
  · intro n hn
    rcases (hR n).1 hn with hp | hq
    · exact (h2 n hp).trans h1'
    · exact h2' n hq
  · rcases h3' with he | hq
    · rw [he, hR]
      rcases h3 with h3 | h3
      · exact Or.inl h3
      · exact Or.inr (Or.inl h3)
    · exact Or.inr ((hR _).2 (Or.inr hq))

theorem Covers.foldlM {α : Type} {f : Scan → α → Except IoError Scan} {P : α → Nat → Prop} :
    ∀ {l : List α} {s s' : Scan},
      (∀ a ∈ l, ∀ s s', f s a = .ok s' → Covers s s' (P a)) → l.foldlM f s = .ok s' →
      Covers s s' fun n => ∃ a ∈ l, P a n
  | [], s, s', _, h => by
    obtain rfl := Except.ok.inj h
    exact ⟨le_rfl, by simp, Or.inl rfl⟩
  | a :: l, s, s', hf, h => by
    rw [foldlM_cons, Except.bind_eq_ok] at h
    obtain ⟨s₁, h1, h2⟩ := h
    have hrest := Covers.foldlM (fun b hb => hf b (mem_cons_of_mem a hb)) h2
    exact (hf a mem_cons_self s s₁ h1).trans hrest (by simp)

theorem observe_covers {f : FileName} {n : Nat} (h : s.observe f = .ok (n, s')) :
    Covers s s' fun k => number f = some k := by
  obtain ⟨hn, -, hmax⟩ := observe_eq_ok h
  refine ⟨by omega, ?_, ?_⟩
  · intro k hk
    obtain rfl := Option.some.inj (hn.symm.trans hk)
    omega
  · rcases le_total n s.highest with hle | hle
    · exact Or.inl (by omega)
    · exact Or.inr (by rw [hmax, Nat.max_eq_right hle]; exact hn)

theorem archives_covers {files : List FileName} (h : s.archives files = .ok s') :
    Covers s s' fun n => ∃ f ∈ files, number f = some n := by
  refine Covers.foldlM ?_ h
  intro f _ s s' hf
  obtain ⟨⟨n, s₁⟩, h1, h2⟩ := Except.bind_eq_ok.1 hf
  obtain ⟨-, h2⟩ := require_bind_eq_ok.1 h2
  obtain rfl := Except.ok.inj h2
  exact observe_covers h1

theorem directory_covers {d : List FileName × List FileName} (h : s.directory d = .ok s') :
    Covers s s' (Shows d) := by
  have hfold := Covers.foldlM (P := fun f n =>
    number f = some n ∨ f = rejected ∧ ∃ g ∈ d.2, number g = some n) ?_ h
  · obtain ⟨h1, h2, h3⟩ := hfold
    refine ⟨h1, ?_, ?_⟩
    · rintro n (⟨f, hf, hn⟩ | ⟨hr, hg⟩)
      · exact h2 n ⟨f, hf, Or.inl hn⟩
      · exact h2 n ⟨rejected, hr, Or.inr ⟨rfl, hg⟩⟩
    · refine h3.imp id ?_
      rintro ⟨f, hf, hn | ⟨rfl, hg⟩⟩
      · exact Or.inl ⟨f, hf, hn⟩
      · exact Or.inr ⟨hf, hg⟩
  · intro f _ s s' hf
    unfold entry at hf
    split at hf
    · next hr =>
      subst hr
      simpa [number_rejected] using archives_covers hf
    · next hr =>
      obtain ⟨⟨n, s₁⟩, h1, h2⟩ := Except.bind_eq_ok.1 hf
      obtain ⟨-, h2⟩ := require_bind_eq_ok.1 h2
      obtain ⟨-, h2⟩ := require_bind_eq_ok.1 h2
      obtain rfl := Except.ok.inj h2
      simpa [Covers, hr] using observe_covers h1

end Scan

/-- An opened owner starts at the greatest ticket that any name carries. -/
theorem open_eq_ok {ds : List (List FileName × List FileName)} {st : Status}
    (h : «open» ds = .ok st) :
    st.failed = false ∧ (∀ d ∈ ds, ∀ n, Shows d n → n ≤ st.highest) ∧
      (st.highest = 0 ∨ ∃ d ∈ ds, Shows d st.highest) := by
  obtain ⟨s, hs, h⟩ := Except.bind_eq_ok.1 h
  obtain rfl := Except.ok.inj h
  obtain ⟨-, h2, h3⟩ :=
    Scan.Covers.foldlM (fun d _ _ _ hd => Scan.directory_covers hd) hs
  exact ⟨rfl, fun d hd n hn => h2 n ⟨d, hd, hn⟩, h3⟩

end Cas.Tickets
