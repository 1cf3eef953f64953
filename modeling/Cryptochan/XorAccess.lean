import Cryptochan.Lib.While
import Cryptochan.XorRegion

/-!
# Cryptochan.XorAccess — the memory accesses of `xor_memory_region`

The functions of `XorRegion` once more, with loads and stores that are checked: an access must lie
in one of the two regions of the call (a store in the destination), and where the source uses
`MAX_SCALAR_LOAD_ALIGNED` or `MAX_SCALAR_STORE_ALIGNED` its address must be a multiple of the
scalar's size.  `none` is an illegal access.

Main result: there is none, so the checked function gives what `xorMemoryRegion` gives
(`xorMemoryRegionChecked_eq`).
-/

namespace Cryptochan

/-- A call of `xor_memory_region`: the addresses of the blocks and the arguments. -/
structure XorCall (β : Type) where
  base : β → ℕ
  dptr : Ptr β
  mask : Ptr β
  size : ℕ

namespace XorCall

variable {β : Type} [DecidableEq β] (c : XorCall β)

def address (p : Ptr β) : ℕ := c.base p.block + p.off

/-- The `w` bytes at `p` are in `[dptr, dptr+size)`. -/
def InDptr (p : Ptr β) (w : ℕ) : Prop :=
  p.block = c.dptr.block ∧ c.dptr.off ≤ p.off ∧ p.off + w ≤ c.dptr.off + c.size

/-- The `w` bytes at `p` are in `[mask, mask+size)`. -/
def InMask (p : Ptr β) (w : ℕ) : Prop :=
  p.block = c.mask.block ∧ c.mask.off ≤ p.off ∧ p.off + w ≤ c.mask.off + c.size

instance (p : Ptr β) (w : ℕ) : Decidable (c.InDptr p w) := inferInstanceAs (Decidable (_ ∧ _ ∧ _))

instance (p : Ptr β) (w : ℕ) : Decidable (c.InMask p w) := inferInstanceAs (Decidable (_ ∧ _ ∧ _))

/-- A load of `w` bytes. -/
def load (aligned : Bool) (w : ℕ) (mem : Mem β) (p : Ptr β) : Option Region :=
  if (c.InDptr p w ∨ c.InMask p w) ∧ (aligned = false ∨ c.address p % w = 0) then
    some (loadScalar mem p)
  else none

/-- A store of `w` bytes. -/
def store (aligned : Bool) (w : ℕ) (mem : Mem β) (p : Ptr β) (v : Region) : Option (Mem β) :=
  if c.InDptr p w ∧ (aligned = false ∨ c.address p % w = 0) then some (storeScalar w mem p v)
  else none

/-- Which of the accesses to `dptr` and to `mask` are aligned ones. -/
structure Alignment where
  dptr : Bool
  mask : Bool

/-- Plain pointers, as `__xor_memory_region_simple` uses them. -/
def Alignment.plain : Alignment := ⟨false, false⟩

variable (al : Alignment)

/-- `XorState.scalar` with checked accesses. -/
def scalar (w : ℕ) (s : XorState β) : Option (XorState β) := do
  let s0 ← c.load al.dptr w s.mem s.dptr
  let m0 ← c.load al.mask w s.mem s.mask
  let mem ← c.store al.dptr w s.mem s.dptr (xorScalar s0 m0)
  some { mem, dptr := s.dptr.add w, mask := s.mask.add w, size := s.size - w }

/-- `XorState.scalarPair` with checked accesses. -/
def scalarPair (w : ℕ) (s : XorState β) : Option (XorState β) := do
  let s0 ← c.load al.dptr w s.mem s.dptr
  let s1 ← c.load al.dptr w s.mem (s.dptr.add w)
  let m0 ← c.load al.mask w s.mem s.mask
  let m1 ← c.load al.mask w s.mem (s.mask.add w)
  let mem ← c.store al.dptr w s.mem s.dptr (xorScalar s0 m0)
  let mem ← c.store al.dptr w mem (s.dptr.add w) (xorScalar s1 m1)
  some { mem, dptr := s.dptr.add (w * 2), mask := s.mask.add (w * 2), size := s.size - w * 2 }

/-- `while (size > w)`. -/
def whileGt (w : ℕ) (s : XorState β) : Option (XorState β) :=
  While.whileSome (fun s => 0 < w ∧ w < s.size) (c.scalar al w) s.size s

/-- `while (size >= w)`. -/
def whileGe (w : ℕ) (s : XorState β) : Option (XorState β) :=
  While.whileSome (fun s => 0 < w ∧ w ≤ s.size) (c.scalar al w) s.size s

/-- `while (size >= w * 4)`, unrolled. -/
def whileUnrolled (w : ℕ) (s : XorState β) : Option (XorState β) :=
  While.whileSome (fun s => 0 < w ∧ w * 4 ≤ s.size)
    (fun s => (c.scalarPair al w s).bind (c.scalarPair al w)) s.size s

end XorCall

section Checked

variable {β : Type} [DecidableEq β] (b : Build) (c : XorCall β)

/-- `__xor_memory_region_simple`. -/
def xorMemoryRegionSimpleChecked (s : XorState β) : Option (XorState β) :=
  if 64 ≤ b.maxScalarSize then do
    let s ← c.whileGt .plain 8 s
    let s ← if 4 < s.size then c.scalar .plain 4 s else some s
    c.whileGe .plain 1 s
  else do
    let s ← c.whileGt .plain 4 s
    c.whileGe .plain 1 s

/-- The body of the two aligned variants. -/
def xorScalarsChecked (al : XorCall.Alignment) (s : XorState β) : Option (XorState β) := do
  let s ← c.whileUnrolled al b.maxScalarBytes s
  let s ← c.whileGe al b.maxScalarBytes s
  if s.size ≠ 0 then xorMemoryRegionSimpleChecked b c s else some s

/-- `__xor_memory_region_aligned_both`. -/
def xorMemoryRegionAlignedBothChecked (s : XorState β) : Option (XorState β) :=
  xorScalarsChecked b c ⟨true, true⟩ s

/-- `__xor_memory_region_aligned_dptr`. -/
def xorMemoryRegionAlignedDptrChecked (s : XorState β) : Option (XorState β) :=
  xorScalarsChecked b c ⟨true, false⟩ s

/-- What follows the alignment of `dptr`. -/
def xorAlignedTailChecked (s : XorState β) : Option (XorState β) :=
  if 64 < b.maxScalarSize then
    if c.address s.mask % b.maxScalarBytes ≠ 0 then xorMemoryRegionAlignedDptrChecked b c s
    else xorMemoryRegionAlignedBothChecked b c s
  else xorMemoryRegionSimpleChecked b c s

/-- `xor_memory_region`. -/
def xorMemoryRegionChecked (mem : Mem β) : Option (Mem β) :=
  let s : XorState β := ⟨mem, c.dptr, c.mask, c.size⟩
  let tail := c.address c.dptr % b.maxScalarBytes
  if tail ≠ 0 then
    let count := b.maxScalarBytes - tail
    if c.size ≤ count then (xorMemoryRegionSimpleChecked b c s).map (·.mem)
    else do
      let s' ← xorMemoryRegionSimpleChecked b c { s with size := count }
      (xorAlignedTailChecked b c
        ⟨s'.mem, c.dptr.add count, c.mask.add count, c.size - count⟩).map (·.mem)
  else (xorAlignedTailChecked b c s).map (·.mem)

end Checked

/-! ### Every access is legal -/

namespace XorCall

variable {β : Type} {c : XorCall β} {al : Alignment} {s : XorState β} {w : ℕ}

/-- What is left to do lies in the regions of the call. -/
structure Covers (c : XorCall β) (s : XorState β) : Prop where
  dptr_block : s.dptr.block = c.dptr.block
  dptr_le : c.dptr.off ≤ s.dptr.off
  dptr_end : s.dptr.off + s.size ≤ c.dptr.off + c.size
  mask_block : s.mask.block = c.mask.block
  mask_le : c.mask.off ≤ s.mask.off
  mask_end : s.mask.off + s.size ≤ c.mask.off + c.size

/-- The pointers are multiples of `w` where the code relies on it. -/
structure Aligned (c : XorCall β) (al : Alignment) (w : ℕ) (s : XorState β) : Prop where
  dptr : al.dptr = false ∨ c.address s.dptr % w = 0
  mask : al.mask = false ∨ c.address s.mask % w = 0

theorem Aligned.plain : c.Aligned .plain w s := ⟨Or.inl rfl, Or.inl rfl⟩

theorem address_add (p : Ptr β) (n : ℕ) : c.address (p.add n) = c.address p + n := by
  simp [address, Nat.add_assoc]

variable [DecidableEq β]

theorem Covers.scalar (h : c.Covers s) (hw : w ≤ s.size) : c.Covers (s.scalar w) where
  dptr_block := h.dptr_block
  dptr_le := Nat.le_trans h.dptr_le (Nat.le_add_right _ _)
  dptr_end := by
    have := h.dptr_end
    simp only [XorState.scalar, Ptr.off_add]
    omega
  mask_block := h.mask_block
  mask_le := Nat.le_trans h.mask_le (Nat.le_add_right _ _)
  mask_end := by
    have := h.mask_end
    simp only [XorState.scalar, Ptr.off_add]
    omega

theorem Covers.scalarPair (h : c.Covers s) (hw : w * 2 ≤ s.size) : c.Covers (s.scalarPair w) :=
  { h.scalar hw with }

theorem Aligned.scalar (h : c.Aligned al w s) : c.Aligned al w (s.scalar w) where
  dptr := h.dptr.imp_right fun e => by rw [XorState.scalar, address_add, Nat.add_mod_right, e]
  mask := h.mask.imp_right fun e => by rw [XorState.scalar, address_add, Nat.add_mod_right, e]

theorem Aligned.scalarPair (h : c.Aligned al w s) : c.Aligned al w (s.scalarPair w) where
  dptr := h.dptr.imp_right fun e => by
    rw [XorState.scalarPair, address_add, Nat.add_mul_mod_self_left, e]
  mask := h.mask.imp_right fun e => by
    rw [XorState.scalarPair, address_add, Nat.add_mul_mod_self_left, e]

section Accesses

variable (h : c.Covers s) (ha : c.Aligned al w s) (mem : Mem β) (k : ℕ) (hk : w * k + w ≤ s.size)
include h ha hk

/-- The `k`-th scalar from here on. -/
theorem load_dptr : c.load al.dptr w mem (s.dptr.add (w * k)) =
    some (loadScalar mem (s.dptr.add (w * k))) := by
  have h1 := h.dptr_le
  have h2 := h.dptr_end
  apply if_pos
  refine ⟨Or.inl ⟨h.dptr_block, ?_, ?_⟩, ?_⟩
  · rw [Ptr.off_add]; omega
  · rw [Ptr.off_add]; omega
  · rw [address_add, Nat.add_mul_mod_self_left]
    exact ha.dptr

theorem load_mask : c.load al.mask w mem (s.mask.add (w * k)) =
    some (loadScalar mem (s.mask.add (w * k))) := by
  have h1 := h.mask_le
  have h2 := h.mask_end
  apply if_pos
  refine ⟨Or.inr ⟨h.mask_block, ?_, ?_⟩, ?_⟩
  · rw [Ptr.off_add]; omega
  · rw [Ptr.off_add]; omega
  · rw [address_add, Nat.add_mul_mod_self_left]
    exact ha.mask

theorem store_dptr (v : Region) : c.store al.dptr w mem (s.dptr.add (w * k)) v =
    some (storeScalar w mem (s.dptr.add (w * k)) v) := by
  have h1 := h.dptr_le
  have h2 := h.dptr_end
  apply if_pos
  refine ⟨⟨h.dptr_block, ?_, ?_⟩, ?_⟩
  · rw [Ptr.off_add]; omega
  · rw [Ptr.off_add]; omega
  · rw [address_add, Nat.add_mul_mod_self_left]
    exact ha.dptr

end Accesses

theorem scalar_eq (h : c.Covers s) (ha : c.Aligned al w s) (hw : w ≤ s.size) :
    c.scalar al w s = some (s.scalar w) := by
  have hk : w * 0 + w ≤ s.size := by omega
  have hd := load_dptr h ha s.mem 0 hk
  have hm := load_mask h ha s.mem 0 hk
  have hs := store_dptr h ha s.mem 0 hk
  simp only [Nat.mul_zero, Ptr.add_zero] at hd hm hs
  simp only [scalar, hd, hm, hs, Option.bind_eq_bind, Option.bind_some]
  rfl

theorem scalarPair_eq (h : c.Covers s) (ha : c.Aligned al w s) (hw : w * 2 ≤ s.size) :
    c.scalarPair al w s = some (s.scalarPair w) := by
  have hk0 : w * 0 + w ≤ s.size := by omega
  have hk1 : w * 1 + w ≤ s.size := by omega
  have hd0 := load_dptr h ha s.mem 0 hk0
  have hm0 := load_mask h ha s.mem 0 hk0
  have hs0 := store_dptr h ha s.mem 0 hk0
  have hd1 := load_dptr h ha s.mem 1 hk1
  have hm1 := load_mask h ha s.mem 1 hk1
  have hs1 := fun mem => store_dptr h ha mem 1 hk1
  simp only [Nat.mul_zero, Ptr.add_zero, Nat.mul_one] at hd0 hm0 hs0 hd1 hm1 hs1
  simp only [scalarPair, hd0, hm0, hs0, hd1, hm1, hs1, Option.bind_eq_bind, Option.bind_some]
  rfl

/-! ### The loops -/

theorem whileGt_eq (h : c.Covers s) : c.whileGt .plain w s = some (s.whileGt w) ∧
    c.Covers (s.whileGt w) := by
  refine While.whileSome_eq (fun s => s.scalar w) c.Covers XorState.size ?_ ?_ s.size s h le_rfl
  · intro s
    rw [XorState.whileGt]
  · intro s hI hP
    exact ⟨scalar_eq hI .plain (by omega), hI.scalar (by omega), by
      simp only [XorState.scalar]
      omega⟩

theorem whileGe_eq (h : c.Covers s) (ha : c.Aligned al w s) :
    c.whileGe al w s = some (s.whileGe w) ∧ c.Covers (s.whileGe w) ∧
      c.Aligned al w (s.whileGe w) := by
  refine While.whileSome_eq (fun s => s.scalar w) (fun s => c.Covers s ∧ c.Aligned al w s)
    XorState.size ?_ ?_ s.size s ⟨h, ha⟩ le_rfl
  · intro s
    rw [XorState.whileGe]
  · rintro s ⟨hI, hA⟩ hP
    exact ⟨scalar_eq hI hA hP.2, ⟨hI.scalar hP.2, hA.scalar⟩, by
      simp only [XorState.scalar]
      omega⟩

theorem whileUnrolled_eq (h : c.Covers s) (ha : c.Aligned al w s) :
    c.whileUnrolled al w s = some (s.whileUnrolled w) ∧ c.Covers (s.whileUnrolled w) ∧
      c.Aligned al w (s.whileUnrolled w) := by
  refine While.whileSome_eq (fun s => (s.scalarPair w).scalarPair w)
    (fun s => c.Covers s ∧ c.Aligned al w s) XorState.size ?_ ?_ s.size s ⟨h, ha⟩ le_rfl
  · intro s
    rw [XorState.whileUnrolled]
  · rintro s ⟨hI, hA⟩ hP
    have hsize : (s.scalarPair w).size = s.size - w * 2 := rfl
    have h1 : w * 2 ≤ s.size := by omega
    have h2 : w * 2 ≤ (s.scalarPair w).size := by omega
    refine ⟨?_, ⟨(hI.scalarPair h1).scalarPair h2, hA.scalarPair.scalarPair⟩, ?_⟩
    · rw [scalarPair_eq hI hA h1, Option.bind_some,
        scalarPair_eq (hI.scalarPair h1) hA.scalarPair h2]
    · simp only [XorState.scalarPair]
      omega

end XorCall

/-! ### The functions -/

section Functions

variable {β : Type} [DecidableEq β] {c : XorCall β} {s : XorState β} (b : Build)

theorem xorMemoryRegionSimpleChecked_eq (h : c.Covers s) :
    xorMemoryRegionSimpleChecked b c s = some (xorMemoryRegionSimple b s) := by
  unfold xorMemoryRegionSimpleChecked xorMemoryRegionSimple
  split_ifs with hb
  · obtain ⟨e1, h1⟩ := XorCall.whileGt_eq (w := 8) h
    simp only [e1, Option.bind_eq_bind, Option.bind_some]
    split_ifs with h4
    · rw [XorCall.scalar_eq h1 .plain (by omega), Option.bind_some]
      exact (XorCall.whileGe_eq (h1.scalar (by omega)) .plain).1
    · exact (XorCall.whileGe_eq h1 .plain).1
  · obtain ⟨e1, h1⟩ := XorCall.whileGt_eq (w := 4) h
    simp only [e1, Option.bind_eq_bind, Option.bind_some]
    exact (XorCall.whileGe_eq h1 .plain).1

theorem xorScalarsChecked_eq {al : XorCall.Alignment} (h : c.Covers s)
    (ha : c.Aligned al b.maxScalarBytes s) :
    xorScalarsChecked b c al s = some (xorScalars b s) := by
  obtain ⟨e1, h1, a1⟩ := XorCall.whileUnrolled_eq h ha
  obtain ⟨e2, h2, -⟩ := XorCall.whileGe_eq h1 a1
  simp only [xorScalarsChecked, xorScalars, e1, e2, Option.bind_eq_bind, Option.bind_some]
  split_ifs
  · exact xorMemoryRegionSimpleChecked_eq b h2
  · rfl

theorem xorAlignedTailChecked_eq (h : c.Covers s) (ha : c.address s.dptr % b.maxScalarBytes = 0) :
    xorAlignedTailChecked b c s = some (xorAlignedTail b c.base s) := by
  unfold xorAlignedTailChecked xorAlignedTail
  split_ifs with hb hm hm' hm'
  · exact xorScalarsChecked_eq b h ⟨Or.inr ha, Or.inl rfl⟩
  · exact absurd hm hm'
  · exact absurd hm' hm
  · exact xorScalarsChecked_eq b h ⟨Or.inr ha, Or.inr (not_not.mp hm)⟩
  · exact xorMemoryRegionSimpleChecked_eq b h

/-- **`xor_memory_region` only issues legal accesses**: for all addresses and sizes, in every build,
no check fails, and the result is that of the unchecked function. -/
theorem xorMemoryRegionChecked_eq (c : XorCall β) (mem : Mem β) :
    xorMemoryRegionChecked b c mem = some (xorMemoryRegion b c.base mem c.dptr c.mask c.size) := by
  have h : c.Covers ⟨mem, c.dptr, c.mask, c.size⟩ := ⟨rfl, le_rfl, le_rfl, rfl, le_rfl, le_rfl⟩
  have hlt : c.address c.dptr % b.maxScalarBytes < b.maxScalarBytes :=
    Nat.mod_lt _ b.maxScalarBytes_pos
  have haddr : (c.base c.dptr.block + c.dptr.off) % b.maxScalarBytes =
    c.address c.dptr % b.maxScalarBytes := rfl
  simp only [xorMemoryRegionChecked, xorMemoryRegion, haddr]
  by_cases ht : c.address c.dptr % b.maxScalarBytes = 0
  · rw [if_neg (not_not.mpr ht), if_neg (not_not.mpr ht), xorAlignedTailChecked_eq b h ht]
    rfl
  · rw [if_pos ht, if_pos ht]
    set count := b.maxScalarBytes - c.address c.dptr % b.maxScalarBytes with hcount
    by_cases hc : c.size ≤ count
    · rw [if_pos hc, if_pos hc, xorMemoryRegionSimpleChecked_eq b h]
      rfl
    · rw [if_neg hc, if_neg hc]
      have hpro : c.Covers ⟨mem, c.dptr, c.mask, count⟩ :=
        ⟨rfl, le_rfl, by simp only; omega, rfl, le_rfl, by simp only; omega⟩
      rw [xorMemoryRegionSimpleChecked_eq b hpro]
      simp only [Option.bind_eq_bind, Option.bind_some]
      rw [xorAlignedTailChecked_eq b]
      · rfl
      · exact ⟨rfl, Nat.le_add_right _ _, by simp only [Ptr.off_add]; omega, rfl,
          Nat.le_add_right _ _, by simp only [Ptr.off_add]; omega⟩
      · -- the prologue ends at a multiple of the scalar's size
        have hsum : c.address c.dptr + count = b.maxScalarBytes * (c.address c.dptr /
            b.maxScalarBytes + 1) := by
          have := Nat.div_add_mod (c.address c.dptr) b.maxScalarBytes
          rw [Nat.mul_add, Nat.mul_one]
          omega
        rw [XorCall.address_add, hsum, Nat.mul_mod_right]

end Functions

end Cryptochan
