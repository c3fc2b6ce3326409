import Cas.Census.Scan

/-!
# What a census reads

Whichever way the reads of an image are cut short or interrupted, the loop over it goes through the
chunks of its content in order. So a census is the count over those chunks, unless an image cannot be
read, which is a matter of that image alone.
-/

namespace Cas.Census

open List
open Except (bind_congr_right bind_eq_ok ensure_of ok_bind)

/-- The content cut into chunks, the last of them possibly short. -/
def cut (size : Nat) : Nat → Bytes → List Bytes
  | 0, _ => []
  | fuel + 1, content =>
    if content = [] then [] else content.take size :: cut size fuel (content.drop size)

def chunks (size : Nat) (content : Bytes) : List Bytes := cut size content.length content

theorem cut_nil (size fuel : Nat) : cut size fuel [] = [] := by
  cases fuel with
  | zero => rfl
  | succ fuel => exact if_pos rfl

/-- Fuel beyond the length of the content makes no difference. -/
theorem cut_eq_chunks {size : Nat} (hsize : 0 < size) {fuel : Nat} {content : Bytes}
    (h : content.length ≤ fuel) : cut size fuel content = chunks size content := by
  suffices h' : ∀ k, content.length ≤ k → cut size fuel content = cut size k content from
    h' _ (le_refl _)
  induction fuel generalizing content with
  | zero =>
    intro k _
    obtain rfl : content = [] := eq_nil_of_length_eq_zero (Nat.le_zero.1 h)
    rw [cut_nil, cut_nil]
  | succ fuel ih =>
    intro k hk
    by_cases hc : content = []
    · rw [hc, cut_nil, cut_nil]
    · have hpos := length_pos_iff.2 hc
      obtain ⟨k, rfl⟩ : ∃ m, k = m + 1 := ⟨k - 1, by omega⟩
      have hdrop : (content.drop size).length ≤ fuel := by
        rw [length_drop]
        omega
      rw [cut, cut, if_neg hc, if_neg hc, ih hdrop k]
      rw [length_drop]
      omega

theorem chunks_flatten {size : Nat} (hsize : 0 < size) (content : Bytes) :
    (chunks size content).flatten = content := by
  suffices h : ∀ fuel (content : Bytes), content.length ≤ fuel →
      (cut size fuel content).flatten = content from h _ content (le_refl _)
  intro fuel
  induction fuel with
  | zero =>
    intro content h
    exact (eq_nil_of_length_eq_zero (Nat.le_zero.1 h)).symm
  | succ fuel ih =>
    intro content h
    rw [cut]
    split
    · next hc => exact hc.symm
    · next hc =>
      have hpos := length_pos_iff.2 hc
      rw [flatten_cons, ih, take_append_drop]
      rw [length_drop]
      omega

/-- A read that succeeds fills the buffer, or reads all there is. -/
theorem readChunk_ok {readings : List Reading} {content : Bytes} {room : Nat} {bytes : Bytes}
    {input : Input} (h : readChunk readings content room = .ok (bytes, input)) :
    bytes = content.take room ∧ input.content = content.drop room := by
  induction readings generalizing content room bytes with
  | nil =>
    cases room with
    | zero =>
      cases h
      exact ⟨rfl, rfl⟩
    | succ room =>
      cases h
      exact ⟨rfl, rfl⟩
  | cons reading readings ih =>
    cases room with
    | zero =>
      cases h
      exact ⟨rfl, rfl⟩
    | succ room =>
      cases reading with
      | interrupted => exact ih h
      | failed error => cases h
      | short more =>
        simp only [readChunk] at h
        split at h
        · next h0 =>
          cases h
          obtain rfl : content = [] := eq_nil_of_length_eq_zero (by omega)
          exact ⟨rfl, rfl⟩
        · -- The rest of the buffer is filled with the rest of the content.
          obtain ⟨r, hr, heq⟩ := Except.map_eq_ok.1 h
          cases heq
          obtain ⟨hbytes, hinput⟩ := ih hr
          have hlen : min (min (more + 1) (room + 1)) content.length ≤ room + 1 := by omega
          constructor
          · rw [hbytes, ← take_add, Nat.add_sub_cancel' hlen]
          · rw [hinput, drop_drop, Nat.add_sub_cancel' hlen]

/-- The chunks that the loop over an image reads. -/
def readAll (chunkBytes : Nat) : Nat → Input → Except IoError (List Bytes)
  | 0, _ => .ok []
  | fuel + 1, input => do
    let (bytes, input) ← readChunk input.readings input.content chunkBytes
    if bytes.length = 0 then .ok [] else (readAll chunkBytes fuel input).map (bytes :: ·)

theorem readAll_ok {size : Nat} (hsize : 0 < size) {fuel : Nat} {input : Input} {cs : List Bytes}
    (hfuel : input.content.length < fuel) (h : readAll size fuel input = .ok cs) :
    cs = chunks size input.content := by
  induction fuel generalizing input cs with
  | zero => omega
  | succ fuel ih =>
    rw [readAll] at h
    obtain ⟨⟨bytes, rest⟩, hread, h⟩ := bind_eq_ok.1 h
    obtain ⟨rfl, hrest⟩ := readChunk_ok hread
    rw [← cut_eq_chunks hsize (Nat.lt_succ_iff.1 hfuel |>.trans (Nat.le_succ fuel)), cut]
    dsimp only at h
    split at h
    · next h0 =>
      cases h
      rw [length_take] at h0
      rw [if_pos (eq_nil_of_length_eq_zero (by omega))]
    · next h0 =>
      obtain ⟨cs, hcs, rfl⟩ := Except.map_eq_ok.1 h
      rw [length_take] at h0
      have hne : input.content ≠ [] := fun hc => h0 (by rw [hc]; exact Nat.min_zero size)
      have hpos := length_pos_iff.2 hne
      have hlt : rest.content.length < fuel := by
        rw [hrest, length_drop]
        omega
      rw [if_neg hne, ih hlt hcs, hrest, cut_eq_chunks hsize]
      rw [← hrest]
      exact hlt.le

/-- A call of `read` that does not fail for good. -/
def Reading.Fine : Reading → Prop
  | .failed _ => False
  | _ => True

theorem readChunk_fine {readings : List Reading} (h : ∀ r ∈ readings, r.Fine) (content : Bytes)
    (room : Nat) :
    ∃ bytes input, readChunk readings content room = .ok (bytes, input) ∧
      ∀ r ∈ input.readings, r.Fine := by
  induction readings generalizing content room with
  | nil => cases room <;> exact ⟨_, _, rfl, h⟩
  | cons reading readings ih =>
    have hrest := fun r hr => h r (mem_cons_of_mem reading hr)
    cases room with
    | zero => exact ⟨_, _, rfl, h⟩
    | succ room =>
      cases reading with
      | interrupted => exact ih hrest content (room + 1)
      | failed error => exact absurd (h _ mem_cons_self) id
      | short more =>
        simp only [readChunk]
        split
        · exact ⟨_, _, rfl, hrest⟩
        · obtain ⟨bytes, input, hread, hfine⟩ := ih hrest
            (content.drop (min (min (more + 1) (room + 1)) content.length))
            (room + 1 - min (min (more + 1) (room + 1)) content.length)
          exact ⟨_, input, by rw [hread]; rfl, hfine⟩

theorem readAll_fine (size fuel : Nat) (input : Input) (h : ∀ r ∈ input.readings, r.Fine) :
    ∃ cs, readAll size fuel input = .ok cs := by
  induction fuel generalizing input with
  | zero => exact ⟨[], rfl⟩
  | succ fuel ih =>
    obtain ⟨bytes, rest, hread, hfine⟩ := readChunk_fine h input.content size
    rw [readAll, hread, ok_bind]
    dsimp only
    split
    · exact ⟨[], rfl⟩
    · obtain ⟨cs, hcs⟩ := ih rest hfine
      exact ⟨bytes :: cs, by rw [hcs]; rfl⟩

section
variable [Digest]

theorem loop_eq (index size fuel : Nat) (input : Input) (fs : Fleet × Scan) :
    loop index size fuel input fs =
      (fun cs => cs.foldl (visit index) fs) <$> readAll size fuel input := by
  induction fuel generalizing input fs with
  | zero => rfl
  | succ fuel ih =>
    rw [loop, readAll]
    cases readChunk input.readings input.content size with
    | error e => rfl
    | ok r =>
      dsimp only [ok_bind]
      split
      · rfl
      · rw [ih]
        cases readAll size fuel r.2 <;> rfl

/-- The five categories of nonzero chunks. -/
def Image.categories (image : Image) : Nat :=
  image.baseInPlaceBytes + image.baseElsewhereBytes + image.priorImageOnlyBytes +
    image.withinImageOnlyBytes + image.newUniqueBytes

/-- A nonzero chunk falls into one of the categories. -/
structure Image.Counted (len : Nat) (i j : Image) : Prop where
  logical : j.logicalBytes = i.logicalBytes
  nonzero : j.nonzeroChunkBytes = i.nonzeroChunkBytes
  unique : j.uniqueBytes = i.uniqueBytes
  categories : j.categories = i.categories + len

omit [Digest] in
theorem again_counted (index len : Nat) (hash : Hash) (new : Bool) (first last offset : Nat)
    (f : Fleet) (image : Image) :
    image.Counted len (again index len hash new first last offset f image).2 := by
  simp only [again, Image.countBase]
  split
  · split <;>
    · refine ⟨rfl, rfl, rfl, ?_⟩
      simp only [Image.categories]
      omega
  · split <;>
    · refine ⟨rfl, rfl, rfl, ?_⟩
      simp only [Image.categories]
      omega

omit [Digest] in
theorem category_counted (index len : Nat) (hash : Hash) (new : Bool) (offset : Nat) (f : Fleet)
    (image : Image) : image.Counted len (category index len hash new offset f image).2 := by
  rw [category]
  split
  · exact again_counted ..
  · refine ⟨rfl, rfl, rfl, ?_⟩
    simp only [fresh, Image.categories]
    omega

/-- The bytes of the chunks that are not all zero. -/
def nonzeroBytes (cs : List Bytes) : Nat := (cs.filter (!·.isZero)).flatten.length

/-- After some chunks of an image: every nonzero byte is in one of the categories. -/
structure Image.Balanced (image : Image) (bytes nonzero : Nat) : Prop where
  logical : image.logicalBytes = bytes
  nonzero : image.nonzeroChunkBytes = nonzero
  unique : image.uniqueBytes ≤ image.nonzeroChunkBytes
  categories : image.categories = image.nonzeroChunkBytes

theorem nonzeroHash_eq_none {bytes : Bytes} : nonzeroHash bytes = none ↔ bytes.isZero = true := by
  rw [nonzeroHash]
  split
  · next h => exact iff_of_true rfl h
  · next h => exact iff_of_false nofun h

theorem visit_balanced {fs : Fleet × Scan} {n m : Nat} (h : fs.2.image.Balanced n m) (index : Nat)
    (bytes : Bytes) :
    (visit index fs bytes).2.image.Balanced (n + bytes.length) (m + nonzeroBytes [bytes]) := by
  have hlogical : fs.2.image.logicalBytes + bytes.length = n + bytes.length := by rw [h.logical]
  simp only [visit]
  split
  · next hash hh =>
    have hz : bytes.isZero = false := by
      rw [Bool.eq_false_iff]
      intro hz
      rw [nonzeroHash_eq_none.2 hz] at hh
      cases hh
    have hbytes : nonzeroBytes [bytes] = bytes.length := by simp [nonzeroBytes, hz]
    let s := fs.2.update bytes
    let new : Bool := hash ∉ s.locals
    let counted : Image :=
      { s.image with
        nonzeroChunkBytes := s.image.nonzeroChunkBytes + bytes.length
        uniqueBytes := s.image.uniqueBytes + if new then bytes.length else 0 }
    have hc := category_counted index bytes.length hash new s.offset
      (fs.1.pushBase index (nonzeroHash bytes)) counted
    refine ⟨hc.logical.trans hlogical, hc.nonzero.trans ?_, ?_, ?_⟩
    · rw [hbytes, ← h.nonzero]
      rfl
    · refine hc.unique.trans_le (le_trans ?_ hc.nonzero.ge)
      refine Nat.add_le_add h.unique ?_
      split
      · exact le_refl _
      · exact Nat.zero_le _
    · exact hc.categories.trans ((congrArg (· + _) h.categories).trans hc.nonzero.symm)
  · next hh =>
    have hbytes : nonzeroBytes [bytes] = 0 := by simp [nonzeroBytes, nonzeroHash_eq_none.1 hh]
    rw [hbytes]
    exact ⟨hlogical, h.nonzero, h.unique, h.categories⟩

omit [Digest] in
theorem nonzeroBytes_cons (c : Bytes) (cs : List Bytes) :
    nonzeroBytes (c :: cs) = nonzeroBytes [c] + nonzeroBytes cs := by
  rw [nonzeroBytes, nonzeroBytes, nonzeroBytes, ← length_append, ← flatten_append,
    ← filter_append, singleton_append]

theorem foldl_balanced (index : Nat) (cs : List Bytes) (fs : Fleet × Scan) {n m : Nat}
    (h : fs.2.image.Balanced n m) :
    (cs.foldl (visit index) fs).2.image.Balanced (n + cs.flatten.length) (m + nonzeroBytes cs) := by
  induction cs generalizing fs n m with
  | nil => exact h
  | cons c cs ih =>
    rw [flatten_cons, length_append, nonzeroBytes_cons, ← add_assoc, ← add_assoc]
    exact ih _ (visit_balanced h index c)

omit [Digest] in
theorem new_balanced (path : String) : (Scan.new path).image.Balanced 0 0 :=
  ⟨rfl, rfl, le_refl _, rfl⟩

/-! ## Images -/

/-- What is read of an image, which the images before it do not matter for. -/
def Source.read (source : Source) (chunkBytes : Nat) : Except IoError (List Bytes) := do
  source.opened
  let regular ← source.regular
  Except.ensure regular ⟨.invalidInput, "expected a regular raw file"⟩
  let before ← source.before
  let cs ← readAll chunkBytes (source.content.length + 1) ⟨source.readings, source.content⟩
  let after ← source.after
  Except.ensure
    (before.len = cs.flatten.length ∧ after.len = before.len ∧ after.modified = before.modified)
    ⟨.other, "image changed while scanning: " ++ source.path⟩
  .ok cs

/-- The count over one image. -/
def countImage (index : Nat) (f : Fleet) (path : String) (cs : List Bytes) : Fleet × Image :=
  finish index (cs.foldl (visit index) (f, .new path))

theorem countImage_balanced (index : Nat) (f : Fleet) (path : String) (cs : List Bytes) :
    (countImage index f path cs).2.Balanced cs.flatten.length (nonzeroBytes cs) := by
  have h := foldl_balanced index cs (f, .new path) (new_balanced path)
  rw [zero_add, zero_add] at h
  exact ⟨h.logical, h.nonzero, h.unique, h.categories⟩

theorem scanImage_eq (index size : Nat) (source : Source) (f : Fleet) :
    scanImage index size source f = countImage index f source.path <$> source.read size := by
  rw [scanImage, Source.read]
  simp only [map_bind, loop_eq, bind_map_left]
  refine bind_congr_right fun _ => bind_congr_right fun _ =>
    bind_congr_right fun _ => bind_congr_right fun before =>
    bind_congr_right fun cs => bind_congr_right fun after => ?_
  -- The loop counted all bytes that were read.
  have hb := (countImage_balanced index f source.path cs).logical
  rw [show (cs.foldl (visit index) (f, .new source.path)).2.image.logicalBytes = _ from hb]
  rfl

/-- The counts over all images. -/
def countImages : Nat → List (String × List Bytes) → Fleet → Fleet × List Image
  | _, [], f => (f, [])
  | index, i :: is, f =>
    let r := countImage index f i.1 i.2
    let rest := countImages (index + 1) is r.1
    (rest.1, r.2 :: rest.2)

def Source.chunks (source : Source) (size : Nat) : String × List Bytes :=
  (source.path, Census.chunks size source.content)

/-- An image can be read. -/
def Source.Readable (source : Source) (size : Nat) : Prop :=
  source.read size = .ok (Census.chunks size source.content)

omit [Digest] in
theorem Source.read_ok {source : Source} {size : Nat} (hsize : 0 < size) {cs : List Bytes}
    (h : source.read size = .ok cs) : cs = Census.chunks size source.content := by
  rw [Source.read] at h
  obtain ⟨_, _, h⟩ := bind_eq_ok.1 h
  obtain ⟨_, _, h⟩ := bind_eq_ok.1 h
  obtain ⟨_, _, h⟩ := bind_eq_ok.1 h
  obtain ⟨_, _, h⟩ := bind_eq_ok.1 h
  obtain ⟨cs', hcs, h⟩ := bind_eq_ok.1 h
  obtain ⟨_, _, h⟩ := bind_eq_ok.1 h
  obtain ⟨_, _, h⟩ := bind_eq_ok.1 h
  cases h
  exact readAll_ok hsize (Nat.lt_succ_self _) hcs

/-- A regular file that does not change while it is read. -/
structure Source.Stable (source : Source) : Prop where
  opened : source.opened = .ok ()
  regular : source.regular = .ok true
  readings : ∀ r ∈ source.readings, r.Fine
  metadata : ∃ modified, source.before = .ok ⟨source.content.length, modified⟩ ∧
    source.after = .ok ⟨source.content.length, modified⟩

omit [Digest] in
theorem Source.Stable.readable {source : Source} (h : source.Stable) {size : Nat}
    (hsize : 0 < size) : source.Readable size := by
  obtain ⟨modified, hbefore, hafter⟩ := h.metadata
  obtain ⟨cs, hcs⟩ := readAll_fine size (source.content.length + 1)
    ⟨source.readings, source.content⟩ h.readings
  have heq := readAll_ok hsize (Nat.lt_succ_self _) hcs
  have hlen : source.content.length = cs.flatten.length := by rw [heq, chunks_flatten hsize]
  rw [Source.Readable, Source.read, h.opened, h.regular, hbefore, hafter, hcs]
  simp only [ok_bind]
  rw [ensure_of trivial, ok_bind, ensure_of ⟨hlen, trivial, trivial⟩, heq]
  rfl

/-- A census goes through if every image can be read, and then is the count over their chunks. -/
theorem scanImages_eq_ok {size : Nat} (hsize : 0 < size) {sources : List Source} {index : Nat}
    {f : Fleet} {r : Fleet × List Image} :
    scanImages size index sources f = .ok r ↔
      (∀ s ∈ sources, s.Readable size) ∧
        r = countImages index (sources.map (·.chunks size)) f := by
  induction sources generalizing index f r with
  | nil =>
    rw [scanImages]
    constructor
    · intro h
      cases h
      exact ⟨(fun s hs => by cases hs), rfl⟩
    · rintro ⟨-, rfl⟩
      rfl
  | cons source sources ih =>
    rw [scanImages, scanImage_eq, bind_map_left, bind_eq_ok]
    constructor
    · rintro ⟨cs, hcs, h⟩
      obtain rfl := Source.read_ok hsize hcs
      obtain ⟨r', hr', h⟩ := bind_eq_ok.1 h
      obtain ⟨hall, rfl⟩ := ih.1 hr'
      cases h
      refine ⟨fun s hs => ?_, rfl⟩
      obtain rfl | hs := mem_cons.1 hs
      · exact hcs
      · exact hall s hs
    · rintro ⟨hall, rfl⟩
      refine ⟨_, hall source mem_cons_self, bind_eq_ok.2 ⟨_, ih.2 ⟨?_, rfl⟩, rfl⟩⟩
      exact fun s hs => hall s (mem_cons_of_mem _ hs)

end

end Cas.Census
