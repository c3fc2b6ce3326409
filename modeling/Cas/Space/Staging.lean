import Cas.Encoding
import Cas.Lib.Machine
import Cas.Lib.Sums

/-!
# The shared staging quota (`space/staging.rs`)

The images of a host share a staging capacity, and each has a capacity of its own. A permit
promises bytes of both; the receipt of an installed segment says by how much the image really grew.
Every operation holds the account's lock, so threads interleave whole operations. An overflow, an
underflow or an index out of bounds gets the account stuck (`none`); the theorem below says that
none happens, so the lock is never poisoned.
-/

namespace Cas.Space

open List

structure Image where
  allocated : Nat
  capacity : Nat
  bounded : capacity < U64

structure Usage where
  allocated : Nat
  promised : Nat
  capacity : Nat
  compaction : Bool
  stopped : Bool
  bounded : capacity < U64
  deriving DecidableEq

namespace Usage

variable (u : Usage)

def used : Nat := u.allocated + u.promised

def update : Usage :=
  let stopped :=
    if u.used ≥ u.capacity then true
    else if u.used * 100 < u.capacity * 60 then false
    else u.stopped
  { u with stopped, compaction := stopped || decide (u.used * 100 ≥ u.capacity * 75) }

def new (image : Image) : Except IoError Usage := do
  require (image.capacity > 0 ∧ image.allocated ≤ image.capacity) "invalid staging capacity"
  return update ⟨image.allocated, 0, image.capacity, false, false, image.bounded⟩

def admitBytes (bytes : Nat) : Bool × Usage :=
  if bytes > u.capacity - saturatingAdd u.allocated u.promised then
    (false, { u with stopped := true, compaction := true })
  else (!u.stopped, u)

/-- `promised += bytes`, and `update`. -/
def charge (bytes : Nat) : Option Usage := do
  let promised ← checkedAdd u.promised bytes
  return update { u with promised }

/-- `promised -= bytes`, and `update`. -/
def refund (bytes : Nat) : Option Usage := do
  let promised ← checkedSub u.promised bytes
  return update { u with promised }

end Usage

structure Permit where
  image : Nat
  bytes : Nat
  running : Bool
  deriving DecidableEq, Repr

/-- `staging::State`. -/
structure Staging where
  host : Usage
  images : List Usage
  failed : Bool
  deriving DecidableEq

namespace Staging

/-- The images' usages, and the sum of what they allocate. -/
def entries : Nat → List Image → Except IoError (Nat × List Usage)
  | allocated, [] => .ok (allocated, [])
  | allocated, image :: images =>
    match checkedAdd allocated image.allocated with
    | none => .error ⟨.other, "staging total overflow"⟩
    | some allocated => do
      let entry ← Usage.new image
      let (allocated, rest) ← entries allocated images
      return (allocated, entry :: rest)

/-- `Staging::new`, where its metadata fits the budget. -/
def new (capacity : Nat) (bounded : capacity < U64) (images : List Image) :
    Except IoError Staging := do
  let (allocated, images) ← entries 0 images
  let host ← Usage.new ⟨allocated, capacity, bounded⟩
  return ⟨host, images, false⟩

variable (s : Staging)

def reserve (image bytes : Nat) : Option (Except IoError Permit × Staging) :=
  if s.failed then
    some (.error ⟨.invalidData, "staging account failed; explicit recovery required"⟩, s)
  else
    match s.images[image]? with
    | none => some (.error ⟨.invalidInput, "invalid input parameter"⟩, s)
    | some usage =>
      if bytes = 0 ∨ bytes > usage.capacity ∨ bytes > s.host.capacity then
        some (.error ⟨.invalidInput, "invalid input parameter"⟩, s)
      else
        let (hostFits, host) := s.host.admitBytes bytes
        let (imageFits, usage) := usage.admitBytes bytes
        if hostFits && imageFits then do
          let host ← host.charge bytes
          let usage ← usage.charge bytes
          return (.ok ⟨image, bytes, false⟩, { s with host, images := s.images.set image usage })
        else
          some (.error ⟨.wouldBlock, "operation would block"⟩,
            { s with host, images := s.images.set image usage })

/-- The answer says whether a gate opened again. -/
def reclaimed (image allocated : Nat) : Option (Except IoError Bool × Staging) :=
  if s.failed then some (.error ⟨.invalidData, "staging account failed"⟩, s)
  else
    match s.images[image]? with
    | none => some (.error ⟨.invalidInput, "invalid input parameter"⟩, s)
    | some old =>
      if allocated > old.allocated then
        some (.error ⟨.other, "unreserved staging growth during reclamation"⟩,
          { s with failed := true })
      else do
        let total ← checkedSub s.host.allocated (old.allocated - allocated)
        let host := { s.host with allocated := total }.update
        let usage := { old with allocated }.update
        return (.ok (s.host.stopped && !host.stopped || old.stopped && !usage.stopped),
          { s with host, images := s.images.set image usage })

end Staging

namespace Permit

variable (p : Permit)

/-- The permit is dropped with it: an invalid receipt leaves a running permit behind, whose drop
fails the account again, and any other receipt leaves no bytes to refund. -/
def installed (s : Staging) (allocated : Nat) : Option (Except IoError Unit × Staging) := do
  let old ← s.images[p.image]?
  if p.running = false ∨ s.failed = true ∨ allocated < old.allocated then
    return (.error ⟨.other, "invalid staging installation receipt"⟩, { s with failed := true })
  let valid := (checkedSub allocated old.allocated).any (· ≤ p.bytes)
  let total := (checkedSub s.host.allocated old.allocated).bind (checkedAdd · allocated)
  let host ← { s.host with allocated := total.getD (U64 - 1) }.refund p.bytes
  let usage ← { old with allocated }.refund p.bytes
  let s := { s with host, images := s.images.set p.image usage }
  if valid = false ∨ total = none ∨ host.allocated > host.capacity ∨ allocated > usage.capacity then
    return (.error ⟨.other, "staging receipt exceeds its reservation"⟩, { s with failed := true })
  return (.ok (), s)

/-- `Drop`. -/
def drop (s : Staging) : Option Staging :=
  if p.bytes = 0 then some s
  else if p.running then some { s with failed := true }
  else do
    let host ← s.host.refund p.bytes
    let old ← s.images[p.image]?
    let usage ← old.refund p.bytes
    return { s with host, images := s.images.set p.image usage }

end Permit

/-- The account and the permits that exist. -/
structure Quota where
  staging : Staging
  permits : List Permit

/-- What a thread does next; permits are named by their place among the live ones. -/
inductive Quota.Op
  | reserve (image bytes : Nat)
  | start (permit : Nat)
  | installed (permit allocated : Nat)
  | drop (permit : Nat)
  | reclaimed (image allocated : Nat)

namespace Quota

variable (q : Quota)

def step : Op → Option Quota
  | .reserve image bytes => do
    let (result, staging) ← q.staging.reserve image bytes
    match result with
    | .error _ => return { q with staging }
    | .ok p => return ⟨staging, p :: q.permits⟩
  | .start i =>
    match q.permits[i]? with
    | none => some q
    | some p => some { q with permits := q.permits.set i { p with running := true } }
  | .installed i allocated =>
    match q.permits[i]? with
    | none => some q
    | some p => do
      let (_, staging) ← p.installed q.staging allocated
      return ⟨staging, q.permits.eraseIdx i⟩
  | .drop i =>
    match q.permits[i]? with
    | none => some q
    | some p => do
      let staging ← p.drop q.staging
      return ⟨staging, q.permits.eraseIdx i⟩
  | .reclaimed image allocated => do
    let (_, staging) ← q.staging.reclaimed image allocated
    return { q with staging }

end Quota

/-! ## Usages -/

namespace Usage

variable {u : Usage}

@[simp] theorem update_allocated : u.update.allocated = u.allocated := rfl
@[simp] theorem update_promised : u.update.promised = u.promised := rfl
@[simp] theorem update_capacity : u.update.capacity = u.capacity := rfl

theorem new_ok {image : Image} (h : new image = .ok u) :
    u.allocated = image.allocated ∧ u.promised = 0 ∧ u.allocated ≤ u.capacity := by
  rw [new, require_bind_eq_ok] at h
  obtain ⟨hcap, h⟩ := h
  cases h
  exact ⟨rfl, rfl, hcap.2⟩

/-- An admission only raises flags. Where the usage fits nothing saturates, so what is admitted
fits. -/
theorem admit_spec (h : u.used ≤ u.capacity) (bytes : Nat) :
    ∃ fits u', u.admitBytes bytes = (fits, u') ∧ u'.allocated = u.allocated ∧
      u'.promised = u.promised ∧ u'.capacity = u.capacity ∧
      (fits = true → u.used + bytes ≤ u.capacity) := by
  have hcap := u.bounded
  unfold admitBytes
  split
  · exact ⟨_, _, rfl, rfl, rfl, rfl, nofun⟩
  · refine ⟨_, _, rfl, rfl, rfl, rfl, fun _ => ?_⟩
    simp only [saturatingAdd, used] at *
    omega

theorem charge_spec (bytes : Nat) (h : u.used + bytes ≤ u.capacity) :
    ∃ u', u.charge bytes = some u' ∧ u'.allocated = u.allocated ∧
      u'.promised = u.promised + bytes ∧ u'.capacity = u.capacity := by
  have hcap := u.bounded
  have hadd : checkedAdd u.promised bytes = some (u.promised + bytes) := by
    rw [checkedAdd_eq_some]
    simp only [used] at h
    omega
  rw [charge, hadd]
  exact ⟨_, rfl, rfl, rfl, rfl⟩

theorem refund_spec {bytes : Nat} (h : bytes ≤ u.promised) :
    ∃ u', u.refund bytes = some u' ∧ u'.allocated = u.allocated ∧
      u'.promised = u.promised - bytes ∧ u'.capacity = u.capacity := by
  rw [refund, checkedSub_of_le h]
  exact ⟨_, rfl, rfl, rfl, rfl⟩

end Usage

/-! ## Every interleaving -/

namespace Quota

/-- What the live permits promise of an image. -/
def held (permits : List Permit) (image : Nat) : Nat :=
  (permits.map fun p => if p.image = image then p.bytes else 0).sum

/-- The books of an account that has not failed. -/
structure Balanced (s : Staging) (permits : List Permit) : Prop where
  allocated : s.host.allocated = (s.images.map Usage.allocated).sum
  promised : s.host.promised = (s.images.map Usage.promised).sum
  live : s.host.promised = (permits.map Permit.bytes).sum
  host : s.host.used ≤ s.host.capacity
  images : ∀ u ∈ s.images, u.used ≤ u.capacity

/-- Promises cover the live permits even when the account has failed, so a refund never
underflows. -/
structure Inv (q : Quota) : Prop where
  known : ∀ p ∈ q.permits, p.image < q.staging.images.length
  covered : (q.permits.map Permit.bytes).sum ≤ q.staging.host.promised
  images : ∀ i u, q.staging.images[i]? = some u → held q.permits i ≤ u.promised
  balanced : q.staging.failed = false → Balanced q.staging q.permits

variable {q : Quota}

/-- The bytes and capacities of an image after one image changes. -/
theorem held_set {images : List Usage} {permits : List Permit} {image : Nat} {old new : Usage}
    (hold : images[image]? = some old) (hnew : held permits image ≤ new.promised)
    (h : ∀ i u, i ≠ image → images[i]? = some u → held permits i ≤ u.promised) :
    ∀ i u, (images.set image new)[i]? = some u → held permits i ≤ u.promised := by
  intro i u hu
  obtain rfl | hi := eq_or_ne i image
  · rw [List.getElem?_set_self (List.getElem?_eq_some_iff.1 hold).1] at hu
    cases hu
    exact hnew
  · rw [getElem?_set_ne hi.symm] at hu
    exact h i u hi hu

theorem Inv.fail (h : q.Inv) : Inv { q with staging := { q.staging with failed := true } } :=
  ⟨h.known, h.covered, h.images, nofun⟩

/-- A permit of a live image is gone, and its promise stays. -/
theorem Inv.forget (h : q.Inv) (i : Nat) :
    Inv ⟨{ q.staging with failed := true }, q.permits.eraseIdx i⟩ := by
  have hle : ∀ f : Permit → Nat, ((q.permits.eraseIdx i).map f).sum ≤ (q.permits.map f).sum := by
    intro f
    exact ((List.eraseIdx_sublist q.permits i).map f).sum_le_sum fun _ _ => Nat.zero_le _
  exact ⟨fun p hp => h.known p (mem_of_mem_eraseIdx hp), (hle _).trans h.covered,
    fun j u hu => (hle _).trans (h.images j u hu), nofun⟩

/-- The host and one image change; the permits are those given. -/
theorem Inv.replace {permits : List Permit} {image : Nat} {old new : Usage} {host : Usage}
    {failed : Bool} (h : q.Inv) (hold : q.staging.images[image]? = some old)
    (hknown : ∀ p ∈ permits, p.image < q.staging.images.length)
    (hcovered : (permits.map Permit.bytes).sum ≤ host.promised)
    (hnew : held permits image ≤ new.promised)
    (hother : ∀ i ≠ image, held permits i ≤ held q.permits i)
    (hbalanced : failed = false → q.staging.failed = false ∧
      host.allocated + old.allocated = q.staging.host.allocated + new.allocated ∧
      host.promised + old.promised = q.staging.host.promised + new.promised ∧
      host.promised = (permits.map Permit.bytes).sum ∧ host.used ≤ host.capacity ∧
      new.used ≤ new.capacity) :
    Inv ⟨⟨host, q.staging.images.set image new, failed⟩, permits⟩ := by
  refine ⟨?_, hcovered, ?_, fun hf => ?_⟩
  · simpa only [length_set] using hknown
  · exact held_set hold hnew fun i u hi hu => (hother i hi).trans (h.images i u hu)
  · obtain ⟨hhealthy, ha, hp, hlive, hhost, himage⟩ := hbalanced hf
    have hb := h.balanced hhealthy
    have hsa := Sums.sum_set Usage.allocated hold new
    have hsp := Sums.sum_set Usage.promised hold new
    have hba := hb.allocated
    have hbp := hb.promised
    exact ⟨by simp only; omega, by simp only; omega, hlive, hhost,
      Sums.forall_mem_set hb.images himage⟩

theorem held_cons (p : Permit) (permits : List Permit) (image : Nat) :
    held (p :: permits) image = (if p.image = image then p.bytes else 0) + held permits image := by
  rw [held, map_cons, sum_cons]
  rfl

theorem Inv.reserve (h : q.Inv) (image bytes : Nat) :
    (∃ e s, q.staging.reserve image bytes = some (.error e, s) ∧ Inv ⟨s, q.permits⟩ ∧
      s.host.allocated = q.staging.host.allocated ∧ s.host.promised = q.staging.host.promised ∧
      s.images.map Usage.allocated = q.staging.images.map Usage.allocated ∧
      s.images.map Usage.promised = q.staging.images.map Usage.promised) ∨
    (∃ p s, q.staging.reserve image bytes = some (.ok p, s) ∧ Inv ⟨s, p :: q.permits⟩) := by
  unfold Staging.reserve
  cases hf : q.staging.failed with
  | true => exact .inl ⟨_, _, rfl, h, rfl, rfl, rfl, rfl⟩
  | false =>
    cases hold : q.staging.images[image]? with
    | none => exact .inl ⟨_, _, rfl, h, rfl, rfl, rfl, rfl⟩
    | some old =>
      simp only [Bool.false_eq_true, if_false]
      split
      · exact .inl ⟨_, _, rfl, h, rfl, rfl, rfl, rfl⟩
      · have hb := h.balanced hf
        have hin : old ∈ q.staging.images := mem_of_getElem? hold
        obtain ⟨hostFits, host, hh, hha, hhp, hhc, hhfits⟩ := Usage.admit_spec hb.host bytes
        obtain ⟨imageFits, usage, hi, hia, hip, hic, hifits⟩ :=
          Usage.admit_spec (hb.images old hin) bytes
        have hlive := hb.live
        have hheld := h.images image old hold
        have hhost := hb.host
        have himage := hb.images old hin
        simp only [hh, hi]
        split
        · next hfits =>
          simp only [Bool.and_eq_true] at hfits
          have hhroom := hhfits hfits.1
          have hiroom := hifits hfits.2
          simp only [Usage.used] at hhost himage hhroom hiroom
          obtain ⟨host', hc, hca, hcp, hcc⟩ :=
            host.charge_spec bytes (by simp only [Usage.used]; omega)
          obtain ⟨usage', hd, hda, hdp, hdc⟩ :=
            usage.charge_spec bytes (by simp only [Usage.used]; omega)
          rw [hc, Option.bind_eq_bind, Option.bind_some, hd]
          refine .inr ⟨_, _, rfl, h.replace hold ?_ ?_ ?_ ?_ fun _ => ⟨hf, ?_⟩⟩
          · exact List.forall_mem_cons.2 ⟨(List.getElem?_eq_some_iff.1 hold).1, h.known⟩
          · simp only [map_cons, sum_cons]
            omega
          · rw [held_cons, if_pos rfl, hdp, hip]
            simp only
            omega
          · intro i hne
            rw [held_cons, if_neg hne.symm, zero_add]
          · simp only [map_cons, sum_cons, Usage.used]
            omega
        · refine .inl ⟨_, _, rfl, h.replace hold h.known ?_ ?_ (fun _ _ => le_rfl) fun _ => ⟨hf, ?_⟩,
            hha, hhp, ?_, ?_⟩
          · omega
          · omega
          · simp only [Usage.used] at *
            omega
          · exact Sums.map_set hold hia
          · exact Sums.map_set hold hip

theorem Inv.start (h : q.Inv) {i : Nat} {p : Permit} (hp : q.permits[i]? = some p) :
    Inv { q with permits := q.permits.set i { p with running := true } } := by
  have hbytes : (q.permits.set i { p with running := true }).map Permit.bytes =
      q.permits.map Permit.bytes := Sums.map_set hp rfl
  have hheld : ∀ j, held (q.permits.set i { p with running := true }) j = held q.permits j :=
    fun j => congrArg sum (Sums.map_set hp rfl)
  refine ⟨Sums.forall_mem_set h.known (h.known p (mem_of_getElem? hp)), ?_, ?_, fun hf => ?_⟩
  · rw [hbytes]
    exact h.covered
  · intro j u hu
    rw [hheld]
    exact h.images j u hu
  · have hb := h.balanced hf
    exact ⟨hb.allocated, hb.promised, hbytes ▸ hb.live, hb.host, hb.images⟩

theorem Inv.permit (h : q.Inv) {i : Nat} {p : Permit} (hp : q.permits[i]? = some p) :
    ∃ old, q.staging.images[p.image]? = some old ∧ p.bytes ≤ q.staging.host.promised ∧
      p.bytes ≤ old.promised ∧ held (q.permits.eraseIdx i) p.image + p.bytes ≤ old.promised ∧
      ((q.permits.eraseIdx i).map Permit.bytes).sum + p.bytes = (q.permits.map Permit.bytes).sum ∧
      ∀ j, held (q.permits.eraseIdx i) j ≤ held q.permits j := by
  have hin := h.known p (mem_of_getElem? hp)
  have hold : q.staging.images[p.image]? = some q.staging.images[p.image] :=
    getElem?_eq_getElem hin
  have hsum := Sums.sum_eraseIdx Permit.bytes hp
  have hcovered := h.covered
  have hheld := h.images _ _ hold
  have herase : ∀ j, held (q.permits.eraseIdx i) j + (if p.image = j then p.bytes else 0) =
      held q.permits j := fun j => Sums.sum_eraseIdx _ hp
  have hself := herase p.image
  rw [if_pos rfl] at hself
  refine ⟨_, hold, by omega, by omega, by omega, hsum, fun j => ?_⟩
  have := herase j
  omega

theorem Inv.installed (h : q.Inv) {i : Nat} {p : Permit} (hp : q.permits[i]? = some p)
    (allocated : Nat) :
    ∃ result s, p.installed q.staging allocated = some (result, s) ∧
      Inv ⟨s, q.permits.eraseIdx i⟩ := by
  obtain ⟨old, hold, hhost, himage, hheld, hsum, hother⟩ := h.permit hp
  have hcovered := h.covered
  unfold Permit.installed
  simp only [hold, Option.bind_eq_bind, Option.bind_some]
  split
  · exact ⟨_, _, rfl, h.forget i⟩
  · next hreceipt =>
    have hf : q.staging.failed = false := by
      cases hf : q.staging.failed with
      | false => rfl
      | true => exact absurd (.inr (.inl hf)) hreceipt
    have hb := h.balanced hf
    have hgrown : old.allocated ≤ allocated := by omega
    have hle : old.allocated ≤ q.staging.host.allocated :=
      hb.allocated ▸ Sums.le_sum Usage.allocated hold
    rw [checkedSub_of_le hgrown, checkedSub_of_le hle]
    obtain ⟨host, hr, ha, hpr, hc⟩ := Usage.refund_spec (u := { q.staging.host with
      allocated := (checkedAdd (q.staging.host.allocated - old.allocated) allocated).getD (U64 - 1) })
      hhost
    obtain ⟨usage, hu, hua, hup, huc⟩ := Usage.refund_spec (u := { old with allocated }) himage
    simp only [Option.bind_some, hr, hu]
    have hknown : ∀ p' ∈ q.permits.eraseIdx i, p'.image < q.staging.images.length :=
      fun p' hp' => h.known p' (mem_of_mem_eraseIdx hp')
    dsimp only at ha hpr hc hua hup huc
    split
    · refine ⟨_, _, rfl, h.replace hold hknown ?_ ?_ (fun j _ => hother j) nofun⟩
      · omega
      · omega
    · next hvalid =>
      refine ⟨_, _, rfl, h.replace hold hknown ?_ ?_ (fun j _ => hother j) fun _ => ⟨hf, ?_⟩⟩
      · omega
      · omega
      · have hlive := hb.live
        have hfits := hb.host
        have hifits := hb.images old (mem_of_getElem? hold)
        simp only [Option.any_some, not_or, Bool.not_eq_false, decide_eq_true_eq, not_lt,
          Option.ne_none_iff_exists'] at hvalid
        obtain ⟨hgrowth, ⟨total, htotal⟩, hhostFits, himageFits⟩ := hvalid
        rw [htotal, Option.getD_some] at ha
        rw [checkedAdd_eq_some] at htotal
        simp only [Usage.used] at *
        refine ⟨?_, ?_, ?_, ?_, ?_⟩
        all_goals omega

theorem Inv.drop (h : q.Inv) {i : Nat} {p : Permit} (hp : q.permits[i]? = some p) :
    ∃ s, p.drop q.staging = some s ∧ Inv ⟨s, q.permits.eraseIdx i⟩ := by
  obtain ⟨old, hold, hhost, himage, hheld, hsum, hother⟩ := h.permit hp
  have hcovered := h.covered
  unfold Permit.drop
  split
  · next hzero =>
    refine ⟨_, rfl, fun p' hp' => h.known p' (mem_of_mem_eraseIdx hp'), ?_,
      fun j u hu => (hother j).trans (h.images j u hu), fun hf => ?_⟩
    · simp only
      omega
    · have hb := h.balanced hf
      have hlive := hb.live
      exact ⟨hb.allocated, hb.promised, by simp only; omega, hb.host, hb.images⟩
  · split
    · exact ⟨_, rfl, h.forget i⟩
    · obtain ⟨host, hr, ha, hpr, hc⟩ := Usage.refund_spec hhost
      obtain ⟨usage, hu, hua, hup, huc⟩ := Usage.refund_spec himage
      simp only [hr, hold, hu, Option.bind_eq_bind, Option.bind_some]
      refine ⟨_, rfl, h.replace hold ?_ ?_ ?_ (fun j _ => hother j) fun hf => ⟨hf, ?_⟩⟩
      · exact fun p' hp' => h.known p' (mem_of_mem_eraseIdx hp')
      · omega
      · omega
      · have hb := h.balanced hf
        have hlive := hb.live
        have hfits := hb.host
        have hifits := hb.images old (mem_of_getElem? hold)
        simp only [Usage.used] at *
        omega

theorem Inv.reclaimed (h : q.Inv) (image allocated : Nat) :
    ∃ result s, q.staging.reclaimed image allocated = some (result, s) ∧
      Inv ⟨s, q.permits⟩ := by
  unfold Staging.reclaimed
  cases hf : q.staging.failed with
  | true => exact ⟨_, _, rfl, h⟩
  | false =>
    cases hold : q.staging.images[image]? with
    | none => exact ⟨_, _, rfl, h⟩
    | some old =>
      simp only [Bool.false_eq_true, if_false]
      split
      · exact ⟨_, _, rfl, h.fail⟩
      · next hshrinks =>
        have hb := h.balanced hf
        have hle := Sums.le_sum Usage.allocated hold
        have hsum := hb.allocated
        have hfits := hb.host
        have hifits := hb.images old (mem_of_getElem? hold)
        have himage := h.images image old hold
        rw [checkedSub_of_le (by omega)]
        refine ⟨_, _, rfl, h.replace hold h.known h.covered himage (fun _ _ => le_rfl)
          fun _ => ⟨hf, ?_⟩⟩
        have hlive := hb.live
        simp only [Usage.used, Usage.update_allocated, Usage.update_promised,
          Usage.update_capacity] at *
        refine ⟨?_, ?_, ?_, ?_, ?_⟩
        all_goals omega

theorem progress : Machine.Progress step Inv := by
  intro q op h
  cases op with
  | reserve image bytes =>
    obtain ⟨e, s, hs, h', -⟩ | ⟨p, s, hs, h'⟩ := h.reserve image bytes
    · simp only [step, hs]
      exact ⟨_, rfl, h'⟩
    · simp only [step, hs]
      exact ⟨_, rfl, h'⟩
  | start i =>
    cases hp : q.permits[i]? with
    | none => exact ⟨q, by simp only [step, hp], h⟩
    | some p => exact ⟨_, by simp only [step, hp], h.start hp⟩
  | installed i allocated =>
    cases hp : q.permits[i]? with
    | none => exact ⟨q, by simp only [step, hp], h⟩
    | some p =>
      obtain ⟨result, s, hs, h'⟩ := h.installed hp allocated
      simp only [step, hp, hs]
      exact ⟨_, rfl, h'⟩
  | drop i =>
    cases hp : q.permits[i]? with
    | none => exact ⟨q, by simp only [step, hp], h⟩
    | some p =>
      obtain ⟨s, hs, h'⟩ := h.drop hp
      simp only [step, hp, hs]
      exact ⟨_, rfl, h'⟩
  | reclaimed image allocated =>
    obtain ⟨result, s, hs, h'⟩ := h.reclaimed image allocated
    simp only [step, hs]
    exact ⟨_, rfl, h'⟩

theorem entries_ok : ∀ {images : List Image} {before total : Nat} {usages : List Usage},
    Staging.entries before images = .ok (total, usages) →
    total = before + (usages.map Usage.allocated).sum ∧ (usages.map Usage.promised).sum = 0 ∧
      ∀ u ∈ usages, u.used ≤ u.capacity
  | [], before, total, usages, h => by
    cases h
    exact ⟨rfl, rfl, nofun⟩
  | image :: images, before, total, usages, h => by
    rw [Staging.entries] at h
    split at h
    · cases h
    · next sum hsum =>
      obtain ⟨entry, hentry, h⟩ := Except.bind_eq_ok.1 h
      obtain ⟨⟨total', rest⟩, hrest, h⟩ := Except.bind_eq_ok.1 h
      cases h
      obtain ⟨ha, hp, hfits⟩ := Usage.new_ok hentry
      obtain ⟨ht, hz, hall⟩ := entries_ok hrest
      rw [checkedAdd_eq_some] at hsum
      refine ⟨?_, ?_, forall_mem_cons.2 ⟨?_, hall⟩⟩
      · rw [map_cons, sum_cons]
        omega
      · rw [map_cons, sum_cons, hp, hz]
      · rw [Usage.used, hp]
        exact hfits

theorem Inv.of_new {capacity : Nat} {bounded : capacity < U64} {images : List Image}
    {s : Staging} (h : Staging.new capacity bounded images = .ok s) : Inv ⟨s, []⟩ := by
  obtain ⟨⟨total, usages⟩, hentries, h⟩ := Except.bind_eq_ok.1 h
  obtain ⟨host, hhost, h⟩ := Except.bind_eq_ok.1 h
  cases h
  obtain ⟨ht, hz, hall⟩ := entries_ok hentries
  obtain ⟨ha, hp, hfits⟩ := Usage.new_ok hhost
  refine ⟨nofun, Nat.zero_le _, fun _ _ _ => Nat.zero_le _, fun _ => ⟨?_, ?_, hp, ?_, hall⟩⟩
  · simp only at ha ⊢
    omega
  · rw [hz]
    exact hp
  · rw [Usage.used, hp]
    exact hfits

/-- However reservations, starts, receipts, reclamations and drops interleave, the account never
gets stuck, its books balance on both levels for as long as it has not failed, and a refused
reservation changes no byte count. -/
theorem books_balance {capacity : Nat} {bounded : capacity < U64} {images : List Image}
    {s₀ : Staging} (hnew : Staging.new capacity bounded images = .ok s₀) (ops : List Op) :
    ∃ q, Machine.run step ⟨s₀, []⟩ ops = some q ∧
      (q.staging.failed = false →
        q.staging.host.allocated = (q.staging.images.map Usage.allocated).sum ∧
        q.staging.host.promised = (q.staging.images.map Usage.promised).sum ∧
        q.staging.host.promised = (q.permits.map Permit.bytes).sum ∧
        q.staging.host.allocated + q.staging.host.promised ≤ q.staging.host.capacity ∧
        ∀ u ∈ q.staging.images, u.allocated + u.promised ≤ u.capacity) ∧
      ∀ image bytes e s, q.staging.reserve image bytes = some (.error e, s) →
        s.host.allocated = q.staging.host.allocated ∧ s.host.promised = q.staging.host.promised ∧
        s.images.map Usage.allocated = q.staging.images.map Usage.allocated ∧
        s.images.map Usage.promised = q.staging.images.map Usage.promised := by
  obtain ⟨q, hrun, h⟩ := progress.run ops (Inv.of_new hnew)
  refine ⟨q, hrun, fun hf => ?_, fun image bytes e s hs => ?_⟩
  · have hb := h.balanced hf
    exact ⟨hb.allocated, hb.promised, hb.live, hb.host, hb.images⟩
  · obtain ⟨e', s', hs', -, hkept⟩ | ⟨p, s', hs', -⟩ := h.reserve image bytes
    · rw [hs] at hs'
      cases hs'
      exact hkept
    · rw [hs] at hs'
      cases hs'

/-- Two images share a host; one installs less than it reserved, the other drops its permit. -/
def sampleImages : List Image := [⟨10, 50, by decide⟩, ⟨0, 60, by decide⟩]

def sampleStaging : Staging :=
  ⟨⟨10, 0, 80, false, false, by decide⟩,
    [⟨10, 0, 50, false, false, by decide⟩, ⟨0, 0, 60, false, false, by decide⟩], false⟩

theorem books_balance_two_images :
    Staging.new 80 (by decide) sampleImages = .ok sampleStaging ∧
    ∃ q, Machine.run step ⟨sampleStaging, []⟩
        [.reserve 0 20, .reserve 1 30, .start 1, .installed 1 25, .drop 0] = some q ∧
      ∀ image bytes e s, q.staging.reserve image bytes = some (.error e, s) →
        s.host.promised = q.staging.host.promised := by
  have hnew : Staging.new 80 (by decide) sampleImages = .ok sampleStaging := rfl
  obtain ⟨q, hrun, -, hrefused⟩ := books_balance hnew
    [.reserve 0 20, .reserve 1 30, .start 1, .installed 1 25, .drop 0]
  exact ⟨hnew, q, hrun, fun image bytes e s hs => (hrefused image bytes e s hs).2.1⟩

end Quota

end Cas.Space
