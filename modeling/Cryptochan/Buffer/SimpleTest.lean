import Cryptochan.Buffer.RoundTrip

/-!
# Cryptochan.Buffer.SimpleTest — `run_simple_test`, one thread, one buffer for all rounds

One round writes `sbuf`, recodes it with `xbuf` and reads it into `dbuf`, each time as much as the
draws say.  Wherever the draws lead, the unrecoded bytes are a slice of `sbuf` and the readable ones a
slice of `sbuf` XOR the mask (`SimpleTest.Inv`), so a round that ends passes and leaves the buffer
empty for the next one (`testCyclicBuffer_simple`).
-/

namespace Cryptochan

/-- What `rand` gives for one call: whether to skip it, whether to offer all, and how much else. -/
structure Try where
  skip : ℕ
  coin : ℕ
  part : ℕ

/-- `(rand() % 2) ? whole : rand() & mask`. -/
def Try.size (t : Try) (whole mask : ℕ) : ℕ := if t.coin % 2 ≠ 0 then whole else t.part &&& mask

/-- The draws of one iteration. -/
structure Tries where
  write : Try
  recode : Try
  read : Try

/-- The buffer, the destination and the three indices. -/
structure SimpleTest where
  buf : CyclicBuffer
  dbuf : Region
  sIdx : ℕ
  dIdx : ℕ
  xIdx : ℕ

namespace SimpleTest

variable (T : TestData) (pl : Placement)

def write (s : SimpleTest) (t : Try) : SimpleTest :=
  if t.skip % 5 ≠ 0 then
    let r := cyclicBufferWrite s.buf (some (T.sbuf.from s.sIdx))
      (min (t.size T.dataSize 0x3F) (T.dataSize - s.sIdx))
    { s with buf := r.1, sIdx := s.sIdx + r.2 }
  else s

def recode (s : SimpleTest) (t : Try) : SimpleTest :=
  if t.skip % 3 ≠ 0 then
    let r := cyclicBufferRecodeXor pl s.buf (some (T.xbuf.from s.xIdx))
      (min (t.size T.maskSize 0x3F) (T.maskSize - s.xIdx))
    { s with buf := r.1, xIdx := if s.xIdx + r.2 = T.maskSize then 0 else s.xIdx + r.2 }
  else s

def read (s : SimpleTest) (t : Try) : SimpleTest :=
  if t.skip % 4 ≠ 0 then
    let r := cyclicBufferRead s.buf (some (s.dbuf.from s.dIdx))
      (min (t.size T.dataSize 0x7F) (T.dataSize - s.dIdx))
    { s with
      buf := r.1
      dbuf := r.2.1.elim s.dbuf (s.dbuf.splice s.dIdx)
      dIdx := s.dIdx + r.2.2 }
  else s

def iterate (s : SimpleTest) (t : Tries) : SimpleTest :=
  ((s.write T t.write).recode T pl t.recode).read T t.read

/-- The loop, as far as the draws go. -/
def loop (s : SimpleTest) (ts : List Tries) : SimpleTest :=
  ts.foldl (fun s t => if s.dIdx < T.dataSize then s.iterate T pl t else s) s

end SimpleTest

/-- One value of `k`: what the three blocks are filled with, and the draws. -/
structure Round where
  data : TestData
  dbuf : Region
  tries : List Tries

/-- How far `run_simple_test` is: in the loop of a round, exited after a failed `memcmp`, or
returned. -/
inductive SimpleOutcome
  | running (s : SimpleTest)
  | exited
  | returned (buf : CyclicBuffer)

instance (T : TestData) (dbuf : Region) : Decidable (T.Passes dbuf) :=
  inferInstanceAs (Decidable (_ = _))

/-- `run_simple_test`, one round after the other. -/
def runSimpleTest (pl : Placement) (buf : CyclicBuffer) : List Round → SimpleOutcome
  | [] => .returned buf
  | r :: rs =>
    let s := SimpleTest.loop r.data pl ⟨buf, r.dbuf, 0, 0, 0⟩ r.tries
    if s.dIdx < r.data.dataSize then .running s
    else if r.data.Passes s.dbuf then runSimpleTest pl s.buf rs
    else .exited

/-! ### One round -/

/-- The bytes of `r` from `a` to `b`. -/
def slice (r : Region) (a b : ℕ) : List UInt8 := (bytes r b).drop a

@[simp] theorem length_slice (r : Region) (a b : ℕ) : (slice r a b).length = b - a := by
  simp [slice]

theorem getElem_slice (r : Region) {a b i : ℕ} (h : i < (slice r a b).length) :
    (slice r a b)[i] = r (a + i) := by
  simp [slice]

theorem slice_append (r : Region) {a b n : ℕ} (h : a ≤ b) :
    slice r a b ++ bytes (r.from b) n = slice r a (b + n) := by
  rw [slice, slice, bytes_add, List.drop_append_of_le_length (by simpa using h)]

theorem drop_slice (r : Region) (a b n : ℕ) : (slice r a b).drop n = slice r (a + n) b := by
  rw [slice, slice, List.drop_drop]

theorem take_slice (r : Region) {a b n : ℕ} (h : n ≤ b - a) :
    (slice r a b).take n = bytes (r.from a) n := by
  refine List.ext_getElem (by simpa using h) ?_
  intro i h1 h2
  rw [List.getElem_take, getElem_slice, getElem_bytes]
  rfl

/-- `sbuf` XOR the mask. -/
def TestData.cipher (T : TestData) : Region := fun i => T.sbuf i ^^^ T.key i

/-- `m` bytes are recoded so far. -/
structure SimpleTest.Inv (T : TestData) (cap : ℕ) (s : SimpleTest) (m : ℕ) : Prop where
  holds : Represents cap s.buf (slice T.sbuf m s.sIdx) (slice T.cipher s.dIdx m)
  read_le : s.dIdx ≤ m
  recode_le : m ≤ s.sIdx
  write_le : s.sIdx ≤ T.dataSize
  xIdx : s.xIdx = m % T.maskSize
  got : ∀ i < s.dIdx, s.dbuf i = T.cipher i

namespace SimpleTest.Inv

variable {T : TestData} {cap m : ℕ} {s : SimpleTest}

theorem write (h : s.Inv T cap m) (t : Try) : (s.write T t).Inv T cap m := by
  unfold SimpleTest.write
  split_ifs
  · obtain ⟨hn, hrep⟩ := h.holds.write (T.sbuf.from s.sIdx)
      (min (t.size T.dataSize 0x3F) (T.dataSize - s.sIdx))
    rw [← hn, slice_append _ h.recode_le] at hrep
    have hroom : (cyclicBufferWrite s.buf (some (T.sbuf.from s.sIdx))
        (min (t.size T.dataSize 0x3F) (T.dataSize - s.sIdx))).2 ≤ T.dataSize - s.sIdx := by
      rw [hn]
      exact (Nat.min_le_left _ _).trans (Nat.min_le_right _ _)
    have hle := h.write_le
    exact ⟨hrep, h.read_le, h.recode_le.trans (Nat.le_add_right _ _), by simp only; omega, h.xIdx,
      h.got⟩
  · exact h

/-- The bytes recoded by one call are the next ones of the cipher: the call does not run over the end
of `xbuf`. -/
theorem cipher_bytes (hmask : 0 < T.maskSize) {n : ℕ} (hn : n ≤ T.maskSize - m % T.maskSize) :
    maskBytes (bytes (T.sbuf.from m) n) (some (T.xbuf.from (m % T.maskSize))) =
      bytes (T.cipher.from m) n := by
  have hlt := Nat.mod_lt m hmask
  refine List.ext_getElem (by simp [maskBytes]) ?_
  intro i h1 h2
  have hi : i < n := by simpa using h2
  simp only [maskBytes, List.getElem_zipWith, getElem_bytes, Region.from, TestData.cipher,
    TestData.key]
  rw [← Nat.mod_add_mod, Nat.mod_eq_of_lt (show m % T.maskSize + i < T.maskSize by omega)]

theorem recode (hmask : 0 < T.maskSize) (h : s.Inv T cap m) (pl : Placement) (t : Try) :
    ∃ m', (s.recode T pl t).Inv T cap m' := by
  unfold SimpleTest.recode
  split_ifs
  · obtain ⟨hn, hrep⟩ := h.holds.recodeXor pl (some (T.xbuf.from s.xIdx))
      (min (t.size T.maskSize 0x3F) (T.maskSize - s.xIdx))
    rw [← hn] at hrep
    obtain ⟨r, hr⟩ : ∃ r, cyclicBufferRecodeXor pl s.buf (some (T.xbuf.from s.xIdx))
      (min (t.size T.maskSize 0x3F) (T.maskSize - s.xIdx)) = r := ⟨_, rfl⟩
    rw [hr] at hn hrep
    rw [length_slice] at hn
    have hx : r.2 ≤ T.maskSize - m % T.maskSize := by
      rw [← h.xIdx, hn]
      exact (Nat.min_le_left _ _).trans (Nat.min_le_right _ _)
    have hU : r.2 ≤ s.sIdx - m := hn.le.trans (Nat.min_le_right _ _)
    have hlt := Nat.mod_lt m hmask
    have hrec := h.recode_le
    rw [drop_slice, take_slice _ hU, h.xIdx, cipher_bytes hmask hx, slice_append _ h.read_le] at hrep
    simp only [hr]
    refine ⟨m + r.2, hrep, h.read_le.trans (Nat.le_add_right _ _), by simp only; omega, h.write_le,
      ?_, h.got⟩
    simp only [h.xIdx]
    exact wrap_mod (by omega)
  · exact ⟨m, h⟩

theorem read (h : s.Inv T cap m) (t : Try) : (s.read T t).Inv T cap m := by
  unfold SimpleTest.read
  split_ifs
  · obtain ⟨hn, hrep⟩ := h.holds.read (some (s.dbuf.from s.dIdx))
      (min (t.size T.dataSize 0x7F) (T.dataSize - s.dIdx))
    obtain ⟨hdest, hsize⟩ := Prod.mk.inj hn
    rw [length_slice] at hdest hsize hrep
    set n := min (min (t.size T.dataSize 0x7F) (T.dataSize - s.dIdx)) (m - s.dIdx) with hdef
    have hle : n ≤ m - s.dIdx := Nat.min_le_right _ _
    have hread := h.read_le
    rw [drop_slice] at hrep
    rw [take_slice _ hle] at hdest
    simp only [hdest, hsize, Option.map_some, Option.elim_some]
    refine ⟨hrep, by simp only; omega, h.recode_le, h.write_le, h.xIdx, ?_⟩
    intro i hi
    simp only [Region.splice]
    split_ifs with hlt
    · exact h.got i hlt
    · rw [storeBytes_of_lt (by simp; simp only at hi; omega), getElem_bytes, Region.from]
      congr 1
      omega
  · exact h

/-- **Step lemma.** -/
theorem iterate (hmask : 0 < T.maskSize) (h : s.Inv T cap m) (pl : Placement) (t : Tries) :
    ∃ m', (s.iterate T pl t).Inv T cap m' := by
  obtain ⟨m', h'⟩ := (h.write t.write).recode hmask pl t.recode
  exact ⟨m', h'.read t.read⟩

theorem loop (hmask : 0 < T.maskSize) (h : ∃ m, s.Inv T cap m) (pl : Placement) (ts : List Tries) :
    ∃ m, (s.loop T pl ts).Inv T cap m := by
  induction ts generalizing s with
  | nil => exact h
  | cons t ts ih =>
    obtain ⟨m, hm⟩ := h
    refine ih (s := if s.dIdx < T.dataSize then s.iterate T pl t else s) ?_
    split_ifs
    · exact hm.iterate hmask pl t
    · exact ⟨m, hm⟩

theorem passes (hmask : 0 < T.maskSize) (h : s.Inv T cap m) (hend : T.dataSize ≤ s.dIdx) :
    T.Passes s.dbuf := by
  refine bytes_congr ?_
  intro i hi
  have e := xorBack_apply hmask s.dbuf 0 i
  rw [Nat.zero_mod, if_pos ⟨Nat.zero_le _, hi⟩] at e
  rw [e, h.got i (by omega), TestData.cipher, UInt8.xor_assoc, UInt8.xor_self, UInt8.xor_zero]

end SimpleTest.Inv

/-! ### All rounds -/

/-- What holds of an outcome: the indices of a loop are in order and its bytes are right, no round
exits, and at the end the buffer is empty. -/
def SimpleOutcome.Good (cap : ℕ) : SimpleOutcome → Prop
  | .running s => s.dIdx ≤ s.sIdx
  | .exited => False
  | .returned buf => Represents cap buf [] []

/-- A round that starts with an empty buffer passes, and leaves it empty. -/
theorem runSimpleTest_good (pl : Placement) {cap : ℕ} (rounds : List Round)
    (hmask : ∀ r ∈ rounds, 0 < r.data.maskSize) (buf : CyclicBuffer)
    (hbuf : Represents cap buf [] []) : (runSimpleTest pl buf rounds).Good cap := by
  induction rounds generalizing buf with
  | nil => exact hbuf
  | cons r rs ih =>
    have hr := hmask r List.mem_cons_self
    obtain ⟨m, hm⟩ : ∃ m, SimpleTest.Inv r.data cap
        (SimpleTest.loop r.data pl ⟨buf, r.dbuf, 0, 0, 0⟩ r.tries) m := by
      refine SimpleTest.Inv.loop hr ⟨0, hbuf, Nat.le_refl _, Nat.le_refl _, Nat.zero_le _, ?_, ?_⟩
        pl r.tries
      · exact (Nat.zero_mod _).symm
      · exact fun i hi => absurd hi (Nat.not_lt_zero i)
    unfold runSimpleTest
    simp only
    split_ifs with hlt hpass
    · exact hm.read_le.trans hm.recode_le
    · -- all that was written is read
      have h1 := hm.read_le
      have h2 := hm.recode_le
      have h3 := hm.write_le
      have hU : slice r.data.sbuf m
          (SimpleTest.loop r.data pl ⟨buf, r.dbuf, 0, 0, 0⟩ r.tries).sIdx = [] :=
        List.eq_nil_of_length_eq_zero (by rw [length_slice]; omega)
      have hR : slice r.data.cipher
          (SimpleTest.loop r.data pl ⟨buf, r.dbuf, 0, 0, 0⟩ r.tries).dIdx m = [] :=
        List.eq_nil_of_length_eq_zero (by rw [length_slice]; omega)
      have hrep := hm.holds
      rw [hU, hR] at hrep
      exact ih (fun r' hr' => hmask r' (List.mem_cons_of_mem _ hr')) _ hrep
    · exact absurd (hm.passes hr (Nat.not_lt.mp hlt)) hpass

/-- **The simple test**: whatever the draws, no `memcmp` finds a difference in any round, in a round
that goes on the reader is not ahead of the writer, and a run that returns has drained the buffer, all
of which is free again. -/
theorem testCyclicBuffer_simple (malloc : ℕ → Option Region) (buf : CyclicBuffer)
    (hinit : cyclicBufferInit malloc 1 = .ok buf) (pl : Placement) (rounds : List Round)
    (hmask : ∀ r ∈ rounds, 0 < r.data.maskSize) :
    runSimpleTest pl buf rounds ≠ .exited ∧
    (∀ s, runSimpleTest pl buf rounds = .running s → s.dIdx ≤ s.sIdx) ∧
    ∀ buf', runSimpleTest pl buf rounds = .returned buf' → buf'.availableToRead = 0 ∧
      buf'.availableToRecode = 0 ∧ buf'.availableToWrite = buf.totalSize ∧
      buf'.totalSize = buf.totalSize := by
  have h := runSimpleTest_good pl rounds hmask buf
    (refines_init (by decide) (by decide) hinit : Represents buf.totalSize buf [] [])
  refine ⟨fun he => ?_, fun s hs => ?_, fun buf' hb => ?_⟩
  · rw [he] at h
    exact h
  · rw [hs] at h
    exact h
  · rw [hb] at h
    exact ⟨h.available_read, h.available_recode, h.available_write, h.total⟩

/-- Two rounds over one buffer. -/
def twoRounds : List Round :=
  [⟨⟨fun i => if i = 0 then 7 else 9, fun _ => 3, 2, 1⟩, fun _ => 0,
      List.replicate 2 ⟨⟨1, 1, 0⟩, ⟨1, 1, 0⟩, ⟨1, 1, 0⟩⟩⟩,
    ⟨⟨fun _ => 5, fun _ => 6, 1, 4⟩, fun _ => 0, [⟨⟨1, 0, 1⟩, ⟨1, 1, 0⟩, ⟨1, 1, 0⟩⟩]⟩]

theorem testCyclicBuffer_simple_twoRounds :
    runSimpleTest ⟨.sse2, fun _ => 0⟩ oneChunk twoRounds ≠ .exited :=
  (testCyclicBuffer_simple (fun _ => some fun _ => 0) oneChunk oneChunk_init ⟨.sse2, fun _ => 0⟩
    twoRounds (by decide)).1

end Cryptochan
