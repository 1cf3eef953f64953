import Cryptochan.Machine

/-!
# Cryptochan.XorRegion — `xor_memory_region` of `common.c`

Memory is a set of blocks (`Mem β`); a pointer is a block and an offset, and `base` gives the address
of each block, which decides the alignment.  A scalar is loaded, XORed and stored as the vector of
its bytes.  The builds differ in `MAX_SCALAR_SIZE` only.

Main result: on regions that do not overlap, `xorMemoryRegion` is the bytewise XOR (`xorBytes`) in
every build and at every alignment (`xorMemoryRegion_eq`).
-/

namespace Cryptochan

/-- The builds: 32-bit, 64-bit, SSE2, AVX2. -/
inductive Build
  | word32
  | word64
  | sse2
  | avx2
  deriving DecidableEq, Repr

/-- `MAX_SCALAR_SIZE`, in bits. -/
def Build.maxScalarSize : Build → ℕ
  | .word32 => 32
  | .word64 => 64
  | .sse2 => 128
  | .avx2 => 256

/-- `MAX_SCALAR_BYTES`. -/
def Build.maxScalarBytes (b : Build) : ℕ := b.maxScalarSize / 8

theorem Build.maxScalarBytes_pos (b : Build) : 0 < b.maxScalarBytes := by cases b <;> decide

abbrev Mem (β : Type) := β → Region

structure Ptr (β : Type) where
  block : β
  off : ℕ

variable {β : Type}

def Ptr.add (p : Ptr β) (n : ℕ) : Ptr β := { p with off := p.off + n }

@[simp] theorem Ptr.block_add (p : Ptr β) (n : ℕ) : (p.add n).block = p.block := rfl

@[simp] theorem Ptr.off_add (p : Ptr β) (n : ℕ) : (p.add n).off = p.off + n := rfl

@[simp] theorem Ptr.add_zero (p : Ptr β) : p.add 0 = p := rfl

theorem Ptr.add_add (p : Ptr β) (m n : ℕ) : (p.add m).add n = p.add (m + n) := by
  simp [Ptr.add, Nat.add_assoc]

/-- The two regions of `size` bytes do not overlap. -/
def Apart (dptr mask : Ptr β) (size : ℕ) : Prop :=
  dptr.block ≠ mask.block ∨ dptr.off + size ≤ mask.off ∨ mask.off + size ≤ dptr.off

theorem Apart.shift {dptr mask : Ptr β} {size n k : ℕ} (h : Apart dptr mask size)
    (hn : n + k ≤ size) : Apart (dptr.add n) (mask.add n) k := by
  rcases h with h | h | h
  · exact Or.inl h
  · exact Or.inr (Or.inl (by simp; omega))
  · exact Or.inr (Or.inr (by simp; omega))

variable [DecidableEq β]

/-- The bytes of the scalar at `p`. -/
def loadScalar (mem : Mem β) (p : Ptr β) : Region := fun k => mem p.block (p.off + k)

/-- Store a scalar of `w` bytes at `p`. -/
def storeScalar (w : ℕ) (mem : Mem β) (p : Ptr β) (v : Region) : Mem β :=
  Function.update mem p.block (memcpy (mem p.block) p.off v 0 w)

def xorScalar (a b : Region) : Region := fun k => a k ^^^ b k

/-- The loop variables of all the loops of `common.c`. -/
structure XorState (β : Type) where
  mem : Mem β
  dptr : Ptr β
  mask : Ptr β
  size : ℕ

namespace XorState

/-- One scalar: load both, store the XOR, go on by `w` bytes. -/
def scalar (w : ℕ) (s : XorState β) : XorState β where
  mem := storeScalar w s.mem s.dptr (xorScalar (loadScalar s.mem s.dptr) (loadScalar s.mem s.mask))
  dptr := s.dptr.add w
  mask := s.mask.add w
  size := s.size - w

/-- Half of the unrolled body: two scalars are loaded from both sides before two are stored. -/
def scalarPair (w : ℕ) (s : XorState β) : XorState β :=
  let s0 := loadScalar s.mem s.dptr
  let s1 := loadScalar s.mem (s.dptr.add w)
  let m0 := loadScalar s.mem s.mask
  let m1 := loadScalar s.mem (s.mask.add w)
  { mem := storeScalar w (storeScalar w s.mem s.dptr (xorScalar s0 m0)) (s.dptr.add w)
      (xorScalar s1 m1)
    dptr := s.dptr.add (w * 2)
    mask := s.mask.add (w * 2)
    size := s.size - w * 2 }

/-- `while (size > w)`. -/
def whileGt (w : ℕ) (s : XorState β) : XorState β :=
  if 0 < w ∧ w < s.size then whileGt w (s.scalar w) else s
termination_by s.size
decreasing_by simp only [scalar]; omega

/-- `while (size >= w)`. -/
def whileGe (w : ℕ) (s : XorState β) : XorState β :=
  if 0 < w ∧ w ≤ s.size then whileGe w (s.scalar w) else s
termination_by s.size
decreasing_by simp only [scalar]; omega

/-- `while (size >= w * 4)`, unrolled. -/
def whileUnrolled (w : ℕ) (s : XorState β) : XorState β :=
  if 0 < w ∧ w * 4 ≤ s.size then whileUnrolled w ((s.scalarPair w).scalarPair w) else s
termination_by s.size
decreasing_by simp only [scalarPair]; omega

end XorState

/-- `__xor_memory_region_simple`: quad words, then one double word (or, in the 32-bit build, all
double words), then single bytes. -/
def xorMemoryRegionSimple (b : Build) (s : XorState β) : XorState β :=
  if 64 ≤ b.maxScalarSize then
    let s := s.whileGt 8
    let s := if 4 < s.size then s.scalar 4 else s
    s.whileGe 1
  else (s.whileGt 4).whileGe 1

/-- The body the two aligned variants share: the loads of the mask differ in their alignment only. -/
def xorScalars (b : Build) (s : XorState β) : XorState β :=
  let s := s.whileUnrolled b.maxScalarBytes
  let s := s.whileGe b.maxScalarBytes
  if s.size ≠ 0 then xorMemoryRegionSimple b s else s

/-- `__xor_memory_region_aligned_both`. -/
def xorMemoryRegionAlignedBoth (b : Build) (s : XorState β) : XorState β := xorScalars b s

/-- `__xor_memory_region_aligned_dptr`. -/
def xorMemoryRegionAlignedDptr (b : Build) (s : XorState β) : XorState β := xorScalars b s

/-- What follows the alignment of `dptr`. -/
def xorAlignedTail (b : Build) (base : β → ℕ) (s : XorState β) : XorState β :=
  if 64 < b.maxScalarSize then
    if (base s.mask.block + s.mask.off) % b.maxScalarBytes ≠ 0 then xorMemoryRegionAlignedDptr b s
    else xorMemoryRegionAlignedBoth b s
  else xorMemoryRegionSimple b s

/-- `xor_memory_region`. -/
def xorMemoryRegion (b : Build) (base : β → ℕ) (mem : Mem β) (dptr mask : Ptr β) (size : ℕ) :
    Mem β :=
  let s : XorState β := ⟨mem, dptr, mask, size⟩
  let tail := (base dptr.block + dptr.off) % b.maxScalarBytes
  if tail ≠ 0 then
    let count := b.maxScalarBytes - tail
    if size ≤ count then (xorMemoryRegionSimple b s).mem
    else
      let mem' := (xorMemoryRegionSimple b { s with size := count }).mem
      (xorAlignedTail b base ⟨mem', dptr.add count, mask.add count, size - count⟩).mem
  else (xorAlignedTail b base s).mem

/-! ### The bytewise meaning -/

/-- `n` bytes at `dptr` XORed with the `n` bytes at `mask`, everything else as it was. -/
def xorBytes (mem : Mem β) (dptr mask : Ptr β) (n : ℕ) : Mem β := fun c i =>
  if c = dptr.block ∧ dptr.off ≤ i ∧ i < dptr.off + n then
    mem c i ^^^ mem mask.block (mask.off + (i - dptr.off))
  else mem c i

namespace XorState

/-- `s` with its first `n` bytes done. -/
def after (s : XorState β) (n : ℕ) : XorState β :=
  ⟨xorBytes s.mem s.dptr s.mask n, s.dptr.add n, s.mask.add n, s.size - n⟩

theorem after_zero (s : XorState β) : s.after 0 = s := by
  have : xorBytes s.mem s.dptr s.mask 0 = s.mem := by
    funext c i
    rw [xorBytes, if_neg (by omega)]
  simp [after, this]

/-- The mask is not touched. -/
theorem xorBytes_mask {mem : Mem β} {d m : Ptr β} {size n k : ℕ} (h : Apart d m size)
    (hn : n ≤ size) (hk : k < size) :
    xorBytes mem d m n m.block (m.off + k) = mem m.block (m.off + k) := by
  unfold xorBytes
  rw [if_neg]
  rintro ⟨h1, h2, h3⟩
  rcases h with h | h | h
  · exact h h1.symm
  · omega
  · omega

theorem after_scalar {s : XorState β} {n w : ℕ} (h : Apart s.dptr s.mask s.size)
    (hn : n + w ≤ s.size) : (s.after n).scalar w = s.after (n + w) := by
  have hm : ∀ k < w, xorBytes s.mem s.dptr s.mask n s.mask.block (s.mask.off + n + k) =
      s.mem s.mask.block (s.mask.off + n + k) := by
    intro k hk
    rw [Nat.add_assoc]
    exact xorBytes_mask h (by omega) (by omega)
  have hmem : ((s.after n).scalar w).mem = xorBytes s.mem s.dptr s.mask (n + w) := by
    funext c i
    simp only [scalar, after, storeScalar, Ptr.block_add, Ptr.off_add]
    by_cases hc : c = s.dptr.block
    · subst hc
      rw [Function.update_self]
      simp only [memcpy]
      by_cases hi : s.dptr.off + n ≤ i ∧ i < s.dptr.off + n + w
      · rw [if_pos hi, Nat.zero_add]
        simp only [xorScalar, loadScalar, Ptr.block_add, Ptr.off_add]
        rw [hm _ (by omega)]
        have e1 : s.dptr.off + n + (i - (s.dptr.off + n)) = i := by omega
        have e2 : s.mask.off + n + (i - (s.dptr.off + n)) = s.mask.off + (i - s.dptr.off) := by omega
        rw [e1, e2]
        simp only [xorBytes, true_and]
        rw [if_neg (by omega), if_pos (by omega)]
      · rw [if_neg hi]
        simp only [xorBytes, true_and]
        split_ifs <;> first | rfl | omega
    · rw [Function.update_of_ne hc]
      simp [xorBytes, hc]
  have e : (s.after n).scalar w = ⟨((s.after n).scalar w).mem, (s.dptr.add n).add w,
    (s.mask.add n).add w, s.size - n - w⟩ := rfl
  rw [e, hmem, Ptr.add_add, Ptr.add_add, Nat.sub_sub]
  rfl

theorem mem_scalar (s : XorState β) (w : ℕ) : (s.scalar w).mem = storeScalar w s.mem s.dptr
    (xorScalar (loadScalar s.mem s.dptr) (loadScalar s.mem s.mask)) := rfl

theorem storeScalar_congr {w : ℕ} {mem : Mem β} {p : Ptr β} {v v' : Region}
    (h : ∀ k < w, v k = v' k) : storeScalar w mem p v = storeScalar w mem p v' := by
  unfold storeScalar
  congr 1
  funext i
  simp only [memcpy]
  split_ifs with hi
  · exact h _ (by omega)
  · rfl

/-- Loading both scalars first makes no difference. -/
theorem scalarPair_eq {s : XorState β} {w : ℕ} (h : Apart s.dptr s.mask s.size)
    (hw : w * 2 ≤ s.size) : s.scalarPair w = (s.scalar w).scalar w := by
  have hd : ∀ k < w, (s.scalar w).mem s.dptr.block (s.dptr.off + w + k) =
      s.mem s.dptr.block (s.dptr.off + w + k) := by
    intro k hk
    rw [mem_scalar, storeScalar, Function.update_self, memcpy, if_neg (by omega)]
  have hm : ∀ k < w, (s.scalar w).mem s.mask.block (s.mask.off + w + k) =
      s.mem s.mask.block (s.mask.off + w + k) := by
    intro k hk
    rw [mem_scalar, storeScalar]
    by_cases hb : s.mask.block = s.dptr.block
    · rw [hb, Function.update_self, memcpy, if_neg]
      rcases h with h | h | h
      · exact absurd hb.symm h
      · omega
      · omega
    · rw [Function.update_of_ne hb]
  have hmem : (s.scalarPair w).mem = ((s.scalar w).scalar w).mem :=
    storeScalar_congr fun k hk => (congrArg₂ (· ^^^ ·) (hd k hk) (hm k hk)).symm
  have e : s.scalarPair w = ⟨(s.scalarPair w).mem, s.dptr.add (w * 2), s.mask.add (w * 2),
    s.size - w * 2⟩ := rfl
  have e' : (s.scalar w).scalar w = ⟨((s.scalar w).scalar w).mem, (s.dptr.add w).add w,
    (s.mask.add w).add w, s.size - w - w⟩ := rfl
  rw [e, e', hmem, Ptr.add_add, Ptr.add_add, Nat.sub_sub, Nat.mul_two]

/-! ### Every loop processes some first bytes -/

section Loops

variable {s : XorState β} (h : Apart s.dptr s.mask s.size)
include h

theorem after_scalarPair {n w : ℕ} (hn : n + w * 2 ≤ s.size) :
    (s.after n).scalarPair w = s.after (n + w * 2) := by
  have hap : Apart (s.after n).dptr (s.after n).mask (s.after n).size :=
    h.shift (by simp only [after]; omega)
  rw [scalarPair_eq hap (by simp only [after]; omega), after_scalar h (by omega),
    after_scalar h (by omega)]
  congr 1; omega

theorem after_whileGt {w n : ℕ} (hn : n ≤ s.size) :
    ∃ n', n' ≤ s.size ∧ (s.after n).whileGt w = s.after n' := by
  induction hk : s.size - n using Nat.strong_induction_on generalizing n with
  | _ k ih =>
    rw [whileGt]
    split_ifs with hc
    · simp only [after] at hc
      rw [after_scalar h (by omega)]
      exact ih (s.size - (n + w)) (by omega) (by omega) rfl
    · exact ⟨n, hn, rfl⟩

theorem after_whileGe {w n : ℕ} (hw : 0 < w) (hn : n ≤ s.size) :
    ∃ n', n' ≤ s.size ∧ s.size < n' + w ∧ (s.after n).whileGe w = s.after n' := by
  induction hk : s.size - n using Nat.strong_induction_on generalizing n with
  | _ k ih =>
    rw [whileGe]
    split_ifs with hc
    · simp only [after] at hc
      rw [after_scalar h (by omega)]
      exact ih (s.size - (n + w)) (by omega) (by omega) rfl
    · simp only [after] at hc
      exact ⟨n, hn, by omega, rfl⟩

theorem after_whileUnrolled {w n : ℕ} (hn : n ≤ s.size) :
    ∃ n', n' ≤ s.size ∧ (s.after n).whileUnrolled w = s.after n' := by
  induction hk : s.size - n using Nat.strong_induction_on generalizing n with
  | _ k ih =>
    rw [whileUnrolled]
    split_ifs with hc
    · simp only [after] at hc
      rw [after_scalarPair h (by omega), after_scalarPair h (by omega)]
      exact ih (s.size - (n + w * 2 + w * 2)) (by omega) (by omega) rfl
    · exact ⟨n, hn, rfl⟩

/-- The bytes loop finishes the region. -/
theorem after_bytes {n : ℕ} (hn : n ≤ s.size) : (s.after n).whileGe 1 = s.after s.size := by
  obtain ⟨n', h1, h2, h3⟩ := after_whileGe h Nat.one_pos hn
  rw [h3]
  congr 1; omega

theorem after_simple (b : Build) {n : ℕ} (hn : n ≤ s.size) :
    xorMemoryRegionSimple b (s.after n) = s.after s.size := by
  unfold xorMemoryRegionSimple
  split_ifs with hb
  · obtain ⟨n1, h1, e1⟩ := after_whileGt h (w := 8) hn
    simp only [e1]
    split_ifs with h4
    · simp only [after] at h4
      rw [after_scalar h (by omega)]
      exact after_bytes h (by omega)
    · exact after_bytes h h1
  · obtain ⟨n1, h1, e1⟩ := after_whileGt h (w := 4) hn
    rw [e1]
    exact after_bytes h h1

theorem after_xorScalars (b : Build) {n : ℕ} (hn : n ≤ s.size) :
    xorScalars b (s.after n) = s.after s.size := by
  obtain ⟨n1, h1, e1⟩ := after_whileUnrolled h (w := b.maxScalarBytes) hn
  obtain ⟨n2, h2, -, e2⟩ := after_whileGe h b.maxScalarBytes_pos h1
  simp only [xorScalars, e1, e2]
  split_ifs with hz
  · exact after_simple h b h2
  · congr 1
    simp only [after] at hz
    omega

theorem after_xorAlignedTail (b : Build) (base : β → ℕ) {n : ℕ} (hn : n ≤ s.size) :
    xorAlignedTail b base (s.after n) = s.after s.size := by
  unfold xorAlignedTail xorMemoryRegionAlignedDptr xorMemoryRegionAlignedBoth
  split_ifs
  · exact after_xorScalars h b hn
  · exact after_xorScalars h b hn
  · exact after_simple h b hn

end Loops

end XorState

open XorState in
/-- **`xor_memory_region` is the bytewise XOR**, in every build, for every size and alignment. -/
theorem xorMemoryRegion_eq (b : Build) (base : β → ℕ) (mem : Mem β) (dptr mask : Ptr β) (size : ℕ)
    (h : Apart dptr mask size) :
    xorMemoryRegion b base mem dptr mask size = xorBytes mem dptr mask size := by
  have h0 := after_zero (⟨mem, dptr, mask, size⟩ : XorState β)
  simp only [xorMemoryRegion]
  split_ifs with ht hc
  · rw [← h0, after_simple h b (Nat.zero_le _)]
    rfl
  · set count := b.maxScalarBytes - (base dptr.block + dptr.off) % b.maxScalarBytes with hcount
    have hle : count ≤ size := by omega
    have hap : Apart dptr mask count := h.shift (n := 0) (by omega)
    have h1 := after_zero (⟨mem, dptr, mask, count⟩ : XorState β)
    have h2 : xorMemoryRegionSimple b ⟨mem, dptr, mask, count⟩ =
        (⟨mem, dptr, mask, count⟩ : XorState β).after count := by
      rw [← h1, after_simple hap b (Nat.zero_le _), h1]
    rw [h2]
    exact congrArg XorState.mem
      (after_xorAlignedTail (s := ⟨mem, dptr, mask, size⟩) h b base hle)
  · rw [← h0, after_xorAlignedTail h b base (Nat.zero_le _)]
    rfl

/-- **Every build computes the bytewise XOR**, whatever the two addresses are: the destination is
XORed with the mask, nothing else changes, and the three paths agree with each other. -/
theorem xorMemoryRegion_bytewise (b : Build) (base : β → ℕ) (mem : Mem β) (dptr mask : Ptr β)
    (size : ℕ) (h : Apart dptr mask size) :
    (∀ i < size, xorMemoryRegion b base mem dptr mask size dptr.block (dptr.off + i) =
      mem dptr.block (dptr.off + i) ^^^ mem mask.block (mask.off + i)) ∧
    (∀ c i, ¬ (c = dptr.block ∧ dptr.off ≤ i ∧ i < dptr.off + size) →
      xorMemoryRegion b base mem dptr mask size c i = mem c i) ∧
    (∀ i < size, xorMemoryRegion b base mem dptr mask size mask.block (mask.off + i) =
      mem mask.block (mask.off + i)) ∧
    xorMemoryRegionAlignedBoth b ⟨mem, dptr, mask, size⟩ =
      xorMemoryRegionSimple b ⟨mem, dptr, mask, size⟩ ∧
    xorMemoryRegionAlignedDptr b ⟨mem, dptr, mask, size⟩ =
      xorMemoryRegionSimple b ⟨mem, dptr, mask, size⟩ := by
  have hpaths : xorScalars b ⟨mem, dptr, mask, size⟩ =
      xorMemoryRegionSimple b ⟨mem, dptr, mask, size⟩ := by
    have h0 := XorState.after_zero (⟨mem, dptr, mask, size⟩ : XorState β)
    rw [← h0, XorState.after_xorScalars h b (Nat.zero_le _), XorState.after_simple h b (Nat.zero_le _)]
  rw [xorMemoryRegion_eq b base mem dptr mask size h]
  refine ⟨?_, ?_, ?_, hpaths, hpaths⟩
  · intro i hi
    rw [xorBytes, if_pos ⟨rfl, by omega, by omega⟩, Nat.add_sub_cancel_left]
  · intro c i hout
    rw [xorBytes, if_neg hout]
  · intro i hi
    exact XorState.xorBytes_mask h le_rfl hi

/-- A hundred bytes in the AVX2 build: neither pointer is aligned, and not in the same way. -/
theorem xorMemoryRegion_bytewise_unaligned :
    xorMemoryRegion .avx2 (fun _ => 0x1003) (fun c _ => if c then 7 else 1) ⟨false, 0⟩ ⟨true, 2⟩ 100
      false 99 = (1 : UInt8) ^^^ 7 := by
  have hbyte := (xorMemoryRegion_bytewise .avx2 (fun _ => 0x1003) (fun c _ => if c then 7 else 1)
    ⟨false, 0⟩ ⟨true, 2⟩ 100 (Or.inl (by decide))).1 99 (by decide)
  rw [Nat.zero_add] at hbyte
  exact hbyte

end Cryptochan
