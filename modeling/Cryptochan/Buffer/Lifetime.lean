import Cryptochan.Buffer.Checked
import Cryptochan.Lib.Resource

/-!
# Cryptochan.Buffer.Lifetime — buffers that are initialized, used and destroyed

A family of `cyclic_buffer_t` over any sequence of `cyclic_buffer_init`, `cyclic_buffer_destroy` and
calls, in any order: a buffer may be used before its init, after a failed one or after its destroy,
and initialized while it is in use.  `Slot` adds to the fields the block that `data_ptr` points to;
the log of what happens to the blocks is replayed by `Lib.Resource`, where `NULL` is never held.  A
call touches what Buffer.Checked checks.
-/

namespace Cryptochan

open Resource (Event replay)

/-- A `cyclic_buffer_t`; `block` is what `data_ptr` points to, `none` for `NULL`. -/
structure Slot where
  buf : CyclicBuffer
  block : Option ℕ

/-- The fields after `memset`. -/
def Slot.zeroed : Slot := ⟨⟨fun _ => 0, 0, 0, 0, 0, 0, 0, 0⟩, none⟩

/-- `cyclic_buffer_init` with what it leaves in the memory of the buffer, a failure included;
`granted` is the block that `malloc` gives. -/
def cyclicBufferInitSlot (granted : Option (ℕ × Region)) (chunks : ℤ) : Slot × Bool :=
  if chunks ≤ 0 then (.zeroed, false)
  else
    let totalSize := u32OfInt (cyclicBufferChunkSize * chunks)
    let sized := { Slot.zeroed.buf with totalSize }
    if cyclicBufferMaxSize < totalSize then (⟨sized, none⟩, false)
    else match granted with
      | none => (⟨sized, none⟩, false)
      | some (addr, dataPtr) =>
        (⟨{ sized with dataPtr, availableToWrite := totalSize }, some addr⟩, true)

/-- `cyclic_buffer_destroy`: what happens to the block, and the fields afterwards. -/
def cyclicBufferDestroy (s : Slot) : List (Event (Option ℕ)) × Slot :=
  (if s.block.isSome then [.release s.block] else [], .zeroed)

/-- The two forms of `cyclic_buffer_init` agree. -/
theorem cyclicBufferInit_eq_ok_iff {granted : Option (ℕ × Region)} {chunks : ℤ}
    {buf : CyclicBuffer} : cyclicBufferInit (fun _ => granted.map Prod.snd) chunks = .ok buf ↔
      cyclicBufferInitSlot granted chunks = (⟨buf, granted.map Prod.fst⟩, true) := by
  unfold cyclicBufferInit cyclicBufferInitSlot
  by_cases hneg : chunks ≤ 0
  · simp [hneg]
  · by_cases hmax : cyclicBufferMaxSize < u32OfInt (cyclicBufferChunkSize * chunks)
    · simp [hneg, hmax]
    · cases granted <;> simp [hneg, hmax, Slot.zeroed]

/-- What a program does with its buffers. -/
inductive LifeCall (ι : Type)
  | init (i : ι) (chunks : ℤ) (granted : Option (ℕ × Region))
  | destroy (i : ι)
  | call (c : PoolCall ι)

/-- The fields of all the buffers. -/
def fields {ι : Type} (slots : ι → Slot) : ι → CyclicBuffer := fun k => (slots k).buf

namespace LifeCall

variable {ι : Type} [DecidableEq ι]

def exec (slots : ι → Slot) : LifeCall ι → ι → Slot
  | .init i chunks granted => Function.update slots i (cyclicBufferInitSlot granted chunks).1
  | .destroy i => Function.update slots i (cyclicBufferDestroy (slots i)).2
  | .call c => fun k => ⟨c.exec (fields slots) k, (slots k).block⟩

/-- The block that a successful init allocates. -/
def allocates : LifeCall ι → List ℕ
  | .init _ chunks granted => (cyclicBufferInitSlot granted chunks).1.block.toList
  | _ => []

/-- The events of the blocks. -/
def events (slots : ι → Slot) : LifeCall ι → List (Event (Option ℕ))
  | .init i chunks granted => (init i chunks granted).allocates.map fun addr => .acquire (some addr)
  | .destroy i => (cyclicBufferDestroy (slots i)).1
  | .call c => (c.touches (fields slots)).map fun k => .use (slots k).block

/-- The block of a buffer that is initialized again before its destroy: `memset` forgets it. -/
def loses (slots : ι → Slot) : LifeCall ι → List ℕ
  | .init i _ _ => (slots i).block.toList
  | _ => []

/-- The buffers after `cs`. -/
def run (slots : ι → Slot) (cs : List (LifeCall ι)) : ι → Slot := cs.foldl exec slots

/-- The log of `cs`. -/
def log (slots : ι → Slot) : List (LifeCall ι) → List (Event (Option ℕ))
  | [] => []
  | c :: cs => c.events slots ++ log (exec slots c) cs

/-- The blocks that `cs` lose. -/
def lost (slots : ι → Slot) : List (LifeCall ι) → List ℕ
  | [] => []
  | c :: cs => c.loses slots ++ lost (exec slots c) cs

/-- `malloc` never gives a block that is in use. -/
def MallocLaw (held : Finset (Option ℕ)) (slots : ι → Slot) : List (LifeCall ι) → Prop
  | [] => True
  | c :: cs => (∀ addr ∈ c.allocates, some addr ∉ held) ∧
    ∀ held' ∈ replay held (c.events slots), MallocLaw held' (exec slots c) cs

instance decidableMallocLaw : ∀ (cs : List (LifeCall ι)) (held : Finset (Option ℕ))
    (slots : ι → Slot), Decidable (MallocLaw held slots cs)
  | [], _, _ => inferInstanceAs (Decidable True)
  | c :: cs, held, slots =>
    have := fun held' => decidableMallocLaw cs held' (exec slots c)
    inferInstanceAs (Decidable (_ ∧ ∀ held' ∈ replay held (c.events slots), _))

end LifeCall

/-! ### What a buffer can be -/

/-- Nothing can be written, recoded or read: no init yet, a failed one, or a destroy since. -/
def CyclicBuffer.Inert (buf : CyclicBuffer) : Prop := ∀ st, buf.available st = 0 ∧ buf.idx st = 0

/-- The buffer has its block and represents two lists. -/
def Slot.Live (s : Slot) : Prop := s.block.isSome ∧ s.buf.Sound

/-- A product that wraps leaves the size of fewer chunks. -/
theorem cyclicBufferInit_mod {malloc : ℕ → Option Region} {chunks : ℤ} {buf : CyclicBuffer}
    (h : cyclicBufferInit malloc chunks = .ok buf) (hpos : 0 < buf.totalSize) :
    cyclicBufferInit malloc (chunks % 0x100000) = .ok buf := by
  obtain ⟨h1, hsize, -, -⟩ := cyclicBufferInit_size h
  have hmod : u32OfInt (cyclicBufferChunkSize * (chunks % 0x100000)) =
      u32OfInt (cyclicBufferChunkSize * chunks) := by
    unfold u32OfInt cyclicBufferChunkSize
    push_cast
    omega
  rw [← h, cyclicBufferInit, cyclicBufferInit, hmod, if_neg (show ¬ chunks % 0x100000 ≤ 0 by omega),
    if_neg (show ¬ chunks ≤ 0 by omega)]

/-- An init leaves the buffer unusable, or ready and with its block. -/
theorem cyclicBufferInitSlot_state (granted : Option (ℕ × Region)) (chunks : ℤ) :
    (cyclicBufferInitSlot granted chunks).1.buf.Inert ∨
      (cyclicBufferInitSlot granted chunks).1.Live := by
  unfold cyclicBufferInitSlot
  dsimp only
  split_ifs with hneg hmax
  · exact Or.inl fun st => by cases st <;> exact ⟨rfl, rfl⟩
  · exact Or.inl fun st => by cases st <;> exact ⟨rfl, rfl⟩
  · cases granted with
    | none => exact Or.inl fun st => by cases st <;> exact ⟨rfl, rfl⟩
    | some g =>
      obtain ⟨addr, data⟩ := g
      rcases Nat.eq_zero_or_pos (u32OfInt (cyclicBufferChunkSize * chunks)) with hz | hpos
      · refine Or.inl fun st => ?_
        cases st
        · exact ⟨hz, rfl⟩
        · exact ⟨rfl, rfl⟩
        · exact ⟨rfl, rfl⟩
      · have hinit := cyclicBufferInit_eq_ok_iff.mpr
          (show cyclicBufferInitSlot (some (addr, data)) chunks = (⟨_, _⟩, true) from by
            rw [cyclicBufferInitSlot, if_neg hneg]
            exact if_neg hmax)
        obtain ⟨-, hsize, hle, -⟩ := cyclicBufferInit_size hinit
        unfold cyclicBufferMaxSize at hle
        dsimp only at hsize hle
        refine Or.inr ⟨rfl, _, _, _, refines_init ?_ ?_ (cyclicBufferInit_mod hinit hpos)⟩
        · omega
        · omega

theorem CyclicBuffer.Inert.recodeNone {buf : CyclicBuffer} (h : buf.Inert) :
    cyclicBufferRecodeNone buf = (buf, 0) := by
  obtain ⟨data, total, ri, wi, ci, ar, aw, ac⟩ := buf
  obtain ⟨rfl, rfl⟩ : ac = 0 ∧ ci = 0 := h .recode
  obtain ⟨rfl, rfl⟩ : ar = 0 ∧ ri = 0 := h .read
  simp [cyclicBufferRecodeNone, CyclicBuffer.setIdx, CyclicBuffer.fetchAdd,
    CyclicBuffer.setAvailable, CyclicBuffer.available, u32Add]

namespace PoolCall

variable {ι : Type} [DecidableEq ι] {bufs : ι → CyclicBuffer} {c : PoolCall ι} {i j k : ι}

theorem update_same {b : CyclicBuffer} (h : k = i → b = bufs i) :
    Function.update bufs i b k = bufs k := by
  by_cases hk : k = i
  · rw [hk, Function.update_self, h hk]
  · exact Function.update_of_ne hk b bufs

/-- A call that finds nothing to recode, or no mask, does nothing. -/
theorem exec_recodeXorBuf_inert (h : (bufs i).Inert ∨ (bufs j).Inert) (hij : i ≠ j)
    (pl : Placement) : exec bufs (.recodeXorBuf i j hij pl) = bufs := by
  have hsame : cyclicBufferRecodeXorBuf pl (bufs i) (bufs j) = (bufs i, bufs j, 0) := by
    unfold cyclicBufferRecodeXorBuf
    rcases h with h | h
    · exact if_pos (h .recode).1
    · split_ifs with h0 h1
      · rfl
      · rfl
      · exact absurd (h .read).1 h1
  simp only [exec, hsame, Function.update_eq_self]

/-- No call changes a buffer of which nothing can be written, recoded or read. -/
theorem exec_inert (h : (bufs k).Inert) (c : PoolCall ι) : exec bufs c k = bufs k := by
  cases c with
  | write i src max =>
    refine update_same ?_
    rintro rfl
    exact congrArg Prod.fst (if_pos (h .write).1)
  | read i dest max =>
    refine update_same ?_
    rintro rfl
    exact congrArg Prod.fst (if_pos (h .read).1)
  | recodeNone i =>
    refine update_same ?_
    rintro rfl
    exact congrArg Prod.fst h.recodeNone
  | recodeXor i pl mask max =>
    refine update_same ?_
    rintro rfl
    exact congrArg Prod.fst (if_pos (h .recode).1)
  | recodeXorBuf i j hij pl =>
    by_cases hi : k = i
    · subst hi
      rw [exec_recodeXorBuf_inert (Or.inl h)]
    · by_cases hj : k = j
      · subst hj
        rw [exec_recodeXorBuf_inert (Or.inr h)]
      · simp only [exec, Function.update_of_ne hi, Function.update_of_ne hj]

theorem sound_update_of {b : CyclicBuffer} (hk : (bufs k).Sound) (h : k = i → b.Sound) :
    (Function.update bufs i b k).Sound := by
  by_cases he : k = i
  · rw [he, Function.update_self]
    exact h he
  · rw [Function.update_of_ne he]
    exact hk

/-- A buffer that represents two lists still does, whatever state the other buffers are in. -/
theorem exec_live (hall : ∀ m, (bufs m).Inert ∨ (bufs m).Sound) (hk : (bufs k).Sound)
    (c : PoolCall ι) : (exec bufs c k).Sound := by
  -- a call on a single buffer is a call on a family of copies of it
  have hcopies := fun c => exec_sound (fun _ : ι => bufs k) c (fun _ => hk) k
  cases c with
  | write i src max =>
    refine sound_update_of hk ?_
    rintro rfl
    simpa only [exec, Function.update_self] using hcopies (.write k src max)
  | read i dest max =>
    refine sound_update_of hk ?_
    rintro rfl
    simpa only [exec, Function.update_self] using hcopies (.read k dest max)
  | recodeNone i =>
    refine sound_update_of hk ?_
    rintro rfl
    simpa only [exec, Function.update_self] using hcopies (.recodeNone k)
  | recodeXor i pl mask max =>
    refine sound_update_of hk ?_
    rintro rfl
    simpa only [exec, Function.update_self] using hcopies (.recodeXor k pl mask max)
  | recodeXorBuf i j hij pl =>
    rcases hall i with hi | hi
    · rw [exec_recodeXorBuf_inert (Or.inl hi)]
      exact hk
    rcases hall j with hj | hj
    · rw [exec_recodeXorBuf_inert (Or.inr hj)]
      exact hk
    -- the two buffers alone, with copies of the first in the other places
    have hpair := exec_sound (fun m => if m = j then bufs j else bufs i) (.recodeXorBuf i j hij pl)
      (fun m => by split_ifs; exacts [hj, hi])
    simp only [exec, if_neg hij, if_true] at hpair
    refine sound_update_of (sound_update_of hk ?_) ?_
    · rintro rfl
      have := hpair k
      rwa [Function.update_of_ne hij, Function.update_self] at this
    · rintro rfl
      have := hpair k
      rwa [Function.update_self] at this

omit [DecidableEq ι] in
theorem of_mem_ite {p : Prop} [Decidable p] {ks : List ι} (h : k ∈ if p then [] else ks) :
    ¬ p ∧ k ∈ ks := by
  split_ifs at h with hp
  · exact absurd h List.not_mem_nil
  · exact ⟨hp, h⟩

omit [DecidableEq ι] in
theorem not_inert_of_touches (h : k ∈ c.touches bufs) : ¬ (bufs k).Inert := by
  intro hk
  cases c with
  | write i src max =>
    obtain ⟨h0, hm⟩ := of_mem_ite h
    obtain rfl := List.mem_singleton.mp hm
    exact h0 (Or.inl (hk .write).1)
  | read i dest max =>
    obtain ⟨h0, hm⟩ := of_mem_ite h
    obtain rfl := List.mem_singleton.mp hm
    exact h0 (Or.inl (hk .read).1)
  | recodeNone i => exact List.not_mem_nil h
  | recodeXor i pl mask max =>
    obtain ⟨h0, hm⟩ := of_mem_ite h
    obtain rfl := List.mem_singleton.mp hm
    exact h0 (Or.inl (hk .recode).1)
  | recodeXorBuf i j hij pl =>
    obtain ⟨h0, hm⟩ := of_mem_ite h
    rcases List.mem_cons.mp hm with rfl | hm
    · exact h0 (Or.inl (hk .recode).1)
    · obtain rfl := List.mem_singleton.mp hm
      exact h0 (Or.inr (hk .read).1)

omit [DecidableEq ι] in
theorem not_mem_divisors_of_inert (hk : (bufs k).Inert) {st : Stage} {max d : ℕ} :
    (k, d) ∉ ((bufs i).callDivisors st max).map (i, ·) := by
  intro h
  obtain ⟨d', hd', he⟩ := List.mem_map.mp h
  obtain ⟨rfl, rfl⟩ := Prod.mk.inj he
  rw [CyclicBuffer.callDivisors, if_pos (hk st).1] at hd'
  exact List.not_mem_nil hd'

omit [DecidableEq ι] in
/-- A division by zero is that of `recode_none`, on a buffer whose size is zero. -/
theorem recodeNone_of_zero_divisor (hall : ∀ m, (bufs m).Inert ∨ (bufs m).Sound)
    (h : (k, 0) ∈ c.divisors bufs) : c = .recodeNone k ∧ (bufs k).totalSize = 0 := by
  have hzero := (of_mem_divisors h).symm
  have hk : (bufs k).Inert := by
    rcases hall k with hk | ⟨cap, U, R, hk⟩
    · exact hk
    · have := hk.sized.pos
      omega
  cases c with
  | write i src max => exact absurd h (not_mem_divisors_of_inert hk)
  | read i dest max => exact absurd h (not_mem_divisors_of_inert hk)
  | recodeNone i =>
    obtain ⟨rfl, -⟩ := Prod.mk.inj (List.mem_singleton.mp h)
    exact ⟨rfl, hzero⟩
  | recodeXor i pl mask max => exact absurd h (not_mem_divisors_of_inert hk)
  | recodeXorBuf i j hij pl =>
    simp only [divisors] at h
    split_ifs at h with h0 h1 hwrap
    · exact absurd h List.not_mem_nil
    · exact absurd h List.not_mem_nil
    · obtain ⟨d, -, he⟩ := List.mem_map.mp h
      obtain ⟨rfl, -⟩ := Prod.mk.inj he
      exact absurd (hk .recode).1 h0
    · rcases List.mem_cons.mp h with he | h
      · obtain ⟨rfl, -⟩ := Prod.mk.inj he
        exact absurd (hk .read).1 h1
      · exact absurd h (not_mem_divisors_of_inert hk)

end PoolCall

/-! ### The blocks -/

/-- What is held is what the buffers have and what was lost; no two buffers share a block. -/
structure LedgerAt {ι : Type} (slots : ι → Slot) (held : Finset (Option ℕ)) (lost : List ℕ) :
    Prop where
  null : none ∉ held
  mem : ∀ addr, some addr ∈ held ↔ (∃ i, (slots i).block = some addr) ∨ addr ∈ lost
  own : ∀ i j addr, (slots i).block = some addr → (slots j).block = some addr → i = j
  kept : ∀ i addr, (slots i).block = some addr → addr ∉ lost
  state : ∀ i, (slots i).buf.Inert ∨ (slots i).Live

namespace LedgerAt

variable {ι : Type} [DecidableEq ι] {slots : ι → Slot} {held : Finset (Option ℕ)} {lost : List ℕ}

omit [DecidableEq ι] in
theorem fields_state (h : LedgerAt slots held lost) (k : ι) :
    (fields slots k).Inert ∨ (fields slots k).Sound :=
  (h.state k).imp id fun hk => hk.2

/-- The fields of one buffer are set to zero, or to what a failed init leaves. -/
theorem forget (h : LedgerAt slots held lost) (i : ι) {s : Slot} (hs : s.block = none)
    (hinert : s.buf.Inert) :
    LedgerAt (Function.update slots i s) held (lost ++ (slots i).block.toList) := by
  have hblock : ∀ k addr, (Function.update slots i s k).block = some addr ↔
      k ≠ i ∧ (slots k).block = some addr := by
    intro k addr
    rcases eq_or_ne k i with rfl | hk
    · simp [hs]
    · simp [hk]
  refine ⟨h.null, ?_, ?_, ?_, ?_⟩
  · intro addr
    rw [h.mem, List.mem_append, Option.mem_toList]
    constructor
    · rintro (⟨k, hk⟩ | hl)
      · rcases eq_or_ne k i with rfl | hki
        · exact Or.inr (Or.inr hk)
        · exact Or.inl ⟨k, (hblock k addr).mpr ⟨hki, hk⟩⟩
      · exact Or.inr (Or.inl hl)
    · rintro (⟨k, hk⟩ | hl | hi)
      · exact Or.inl ⟨k, ((hblock k addr).mp hk).2⟩
      · exact Or.inr hl
      · exact Or.inl ⟨i, hi⟩
  · intro j k addr hj hk
    exact h.own j k addr ((hblock j addr).mp hj).2 ((hblock k addr).mp hk).2
  · intro k addr hk hl
    obtain ⟨hki, hk⟩ := (hblock k addr).mp hk
    rcases List.mem_append.mp hl with hl | hl
    · exact h.kept k addr hk hl
    · exact hki (h.own k i addr hk (Option.mem_toList.mp hl))
  · intro k
    rcases eq_or_ne k i with rfl | hki
    · rw [Function.update_self]
      exact Or.inl hinert
    · rw [Function.update_of_ne hki]
      exact h.state k

/-- A buffer without a block gets one that is not in use. -/
theorem grant (h : LedgerAt slots held lost) {i : ι} (hi : (slots i).block = none) {s : Slot}
    {addr : ℕ} (hs : s.block = some addr) (hfree : some addr ∉ held)
    (hstate : s.buf.Inert ∨ s.Live) :
    LedgerAt (Function.update slots i s) (insert (some addr) held) lost := by
  have hblock : ∀ k a, (Function.update slots i s k).block = some a ↔
      (k = i ∧ a = addr) ∨ (k ≠ i ∧ (slots k).block = some a) := by
    intro k a
    rcases eq_or_ne k i with rfl | hk
    · simp [hs, eq_comm]
    · simp [hk]
  have hnot : ∀ k, (slots k).block ≠ some addr :=
    fun k hk => hfree ((h.mem addr).mpr (Or.inl ⟨k, hk⟩))
  refine ⟨?_, ?_, ?_, ?_, ?_⟩
  · simp [h.null]
  · intro a
    rw [Finset.mem_insert, h.mem, Option.some_inj]
    constructor
    · rintro (rfl | ⟨k, hk⟩ | hl)
      · exact Or.inl ⟨i, (hblock i a).mpr (Or.inl ⟨rfl, rfl⟩)⟩
      · refine Or.inl ⟨k, (hblock k a).mpr (Or.inr ⟨?_, hk⟩)⟩
        rintro rfl
        exact absurd (hi.symm.trans hk) (by simp)
      · exact Or.inr hl
    · rintro (⟨k, hk⟩ | hl)
      · rcases (hblock k a).mp hk with ⟨-, ha⟩ | ⟨-, hk⟩
        · exact Or.inl ha
        · exact Or.inr (Or.inl ⟨k, hk⟩)
      · exact Or.inr (Or.inr hl)
  · intro j k a hj hk
    rcases (hblock j a).mp hj with ⟨rfl, rfl⟩ | ⟨-, hj⟩
    · rcases (hblock k a).mp hk with ⟨rfl, -⟩ | ⟨-, hk⟩
      · rfl
      · exact absurd hk (hnot k)
    · rcases (hblock k a).mp hk with ⟨-, rfl⟩ | ⟨-, hk⟩
      · exact absurd hj (hnot j)
      · exact h.own j k a hj hk
  · intro k a hk hl
    rcases (hblock k a).mp hk with ⟨rfl, rfl⟩ | ⟨-, hk⟩
    · exact hfree ((h.mem a).mpr (Or.inr hl))
    · exact h.kept k a hk hl
  · intro k
    rcases eq_or_ne k i with rfl | hki
    · rw [Function.update_self]
      exact hstate
    · rw [Function.update_of_ne hki]
      exact h.state k

/-- The block of a buffer is given back. -/
theorem release (h : LedgerAt slots held lost) {i : ι} {addr : ℕ}
    (hi : (slots i).block = some addr) :
    LedgerAt (Function.update slots i .zeroed) (held.erase (some addr)) lost := by
  have hf := h.forget i (s := .zeroed) rfl fun st => by cases st <;> exact ⟨rfl, rfl⟩
  rw [hi, Option.toList_some] at hf
  have hnot : addr ∉ lost := h.kept i addr hi
  have hgone : ∀ k, (Function.update slots i .zeroed k).block ≠ some addr :=
    fun k hk => hf.kept k addr hk (by simp)
  refine ⟨?_, ?_, hf.own, ?_, hf.state⟩
  · exact fun hn => h.null (Finset.mem_of_mem_erase hn)
  · intro a
    rw [Finset.mem_erase, hf.mem, List.mem_append, List.mem_singleton]
    constructor
    · rintro ⟨hne, hk | hl | rfl⟩
      · exact Or.inl hk
      · exact Or.inr hl
      · exact absurd rfl hne
    · rintro (⟨k, hk⟩ | hl)
      · refine ⟨?_, Or.inl ⟨k, hk⟩⟩
        rintro ha
        obtain rfl := Option.some.inj ha
        exact hgone k hk
      · refine ⟨?_, Or.inr (Or.inl hl)⟩
        rintro ha
        obtain rfl := Option.some.inj ha
        exact hnot hl
  · intro k a hk hl
    exact hf.kept k a hk (List.mem_append_left _ hl)

/-- Every step is allowed by the ledger, and keeps it. -/
theorem step (h : LedgerAt slots held lost) (c : LifeCall ι)
    (hc : ∀ addr ∈ c.allocates, some addr ∉ held) :
    ∃ held', replay held (c.events slots) = some held' ∧
      LedgerAt (c.exec slots) held' (lost ++ c.loses slots) := by
  cases c with
  | init i chunks granted =>
    have hstate := cyclicBufferInitSlot_state granted chunks
    simp only [LifeCall.exec, LifeCall.events, LifeCall.loses, LifeCall.allocates] at hc ⊢
    generalize (cyclicBufferInitSlot granted chunks).1 = s at hc hstate ⊢
    cases hb : s.block with
    | none =>
      rw [Option.toList_none, List.map_nil]
      have hinert : s.buf.Inert := by
        rcases hstate with hi | hl
        · exact hi
        · exact absurd hl.1 (by simp [hb])
      exact ⟨held, rfl, h.forget i hb hinert⟩
    | some addr =>
      rw [hb] at hc
      have hfree := hc addr (by simp)
      refine ⟨insert (some addr) held, Resource.replay_acquire hfree [], ?_⟩
      have hf := h.forget i (s := .zeroed) rfl fun st => by cases st <;> exact ⟨rfl, rfl⟩
      have hg := hf.grant (i := i) (by rw [Function.update_self]; rfl) hb hfree hstate
      rwa [Function.update_idem] at hg
  | destroy i =>
    simp only [LifeCall.exec, LifeCall.events, LifeCall.loses, cyclicBufferDestroy, List.append_nil]
    cases hb : (slots i).block with
    | none =>
      have hf := h.forget i (s := .zeroed) rfl fun st => by cases st <;> exact ⟨rfl, rfl⟩
      rw [hb, Option.toList_none, List.append_nil] at hf
      exact ⟨held, rfl, hf⟩
    | some addr =>
      refine ⟨held.erase (some addr), ?_, h.release hb⟩
      have hmem := (h.mem addr).mpr (Or.inl ⟨i, hb⟩)
      simp [replay, Event.apply, hmem]
  | call c =>
    refine ⟨held, Resource.replay_uses ?_, ?_⟩
    · intro e he
      obtain ⟨k, hk, rfl⟩ := List.mem_map.mp he
      rcases h.state k with hinert | ⟨hblock, -⟩
      · exact absurd hinert
          (show ¬ (fields slots k).Inert from PoolCall.not_inert_of_touches hk)
      · obtain ⟨addr, haddr⟩ := Option.isSome_iff_exists.mp hblock
        exact ⟨_, haddr ▸ (h.mem addr).mpr (Or.inl ⟨k, haddr⟩), rfl⟩
    · simp only [LifeCall.loses, List.append_nil]
      refine ⟨h.null, h.mem, h.own, h.kept, fun k => ?_⟩
      rcases h.state k with hinert | ⟨hblock, hsound⟩
      · have hinert' : (fields slots k).Inert := hinert
        have hsame : c.exec (fields slots) k = fields slots k := PoolCall.exec_inert hinert' c
        refine Or.inl ?_
        simp only [LifeCall.exec, hsame]
        exact hinert
      · exact Or.inr ⟨hblock, PoolCall.exec_live h.fields_state hsound c⟩

/-- The same for a whole run. -/
theorem run (cs : List (LifeCall ι)) : ∀ {slots : ι → Slot} {held : Finset (Option ℕ)}
    {lost : List ℕ}, LedgerAt slots held lost → LifeCall.MallocLaw held slots cs →
    ∃ held', replay held (LifeCall.log slots cs) = some held' ∧
      LedgerAt (LifeCall.run slots cs) held' (lost ++ LifeCall.lost slots cs) := by
  induction cs with
  | nil =>
    intro slots held lost h _
    exact ⟨held, rfl, by rwa [LifeCall.lost, List.append_nil]⟩
  | cons c cs ih =>
    rintro slots held lost h ⟨hgranted, hlaw⟩
    obtain ⟨held1, hreplay, h1⟩ := h.step c hgranted
    obtain ⟨held', hreplay', h'⟩ := ih h1 (hlaw held1 hreplay)
    refine ⟨held', ?_, ?_⟩
    · rw [LifeCall.log, Resource.replay_append, hreplay]
      exact hreplay'
    · rw [LifeCall.lost, ← List.append_assoc]
      exact h'

/-- No checked call fails but a `recode_none` on a buffer without a size. -/
theorem execChecked (h : LedgerAt slots held lost) (c : PoolCall ι)
    (hc : ∀ k, c = .recodeNone k → (slots k).buf.totalSize ≠ 0) :
    c.execChecked (fun k => (slots k).block.isSome) (fields slots) =
      some (c.exec (fields slots)) := by
  refine PoolCall.execChecked_eq_some_iff.mpr ⟨?_, ?_, rfl⟩
  · intro k hk
    obtain ⟨rfl, hzero⟩ := PoolCall.recodeNone_of_zero_divisor h.fields_state hk
    exact hc k rfl hzero
  · intro k hk
    rcases h.state k with hinert | ⟨hblock, -⟩
    · exact absurd hinert (show ¬ (fields slots k).Inert from PoolCall.not_inert_of_touches hk)
    · exact hblock

omit [DecidableEq ι] in
theorem eq_empty (h : LedgerAt slots held []) (hnone : ∀ i, (slots i).block = none) : held = ∅ := by
  refine Finset.eq_empty_of_forall_notMem fun r hr => ?_
  cases r with
  | none => exact h.null hr
  | some addr =>
    rcases (h.mem addr).mp hr with ⟨i, hi⟩ | hl
    · exact absurd ((hnone i).symm.trans hi) (by simp)
    · exact List.not_mem_nil hl

end LedgerAt

section Lives

variable {ι : Type} [DecidableEq ι]

/-- **The lives of buffers**: whatever is initialized, used and destroyed in whatever order, no
block is touched or freed unless a buffer has it, none is freed twice and no call follows `NULL`.
What is held are the blocks of the buffers, each its own, and those that an init over a live buffer
lost; if there was none and every buffer is destroyed, nothing is left.  The only division by zero
is that of `recode_none` on a buffer without a size; any other checked call is the call. -/
theorem cyclicBuffer_lives (cs : List (LifeCall ι))
    (hmalloc : LifeCall.MallocLaw ∅ (fun _ => Slot.zeroed) cs) :
    let slots := LifeCall.run (fun _ => Slot.zeroed) cs
    let lost := LifeCall.lost (fun _ => Slot.zeroed) cs
    ∃ held, replay ∅ (LifeCall.log (fun _ => Slot.zeroed) cs) = some held ∧
      LedgerAt slots held lost ∧ (lost = [] → (∀ i, (slots i).block = none) → held = ∅) ∧
      (∀ (c : PoolCall ι) k, (k, 0) ∈ c.divisors (fields slots) →
        c = .recodeNone k ∧ (slots k).buf.totalSize = 0) ∧
      ∀ c : PoolCall ι, (∀ k, c = .recodeNone k → (slots k).buf.totalSize ≠ 0) →
        c.execChecked (fun k => (slots k).block.isSome) (fields slots) =
          some (c.exec (fields slots)) := by
  intro slots lost
  have hstart : LedgerAt (fun _ : ι => Slot.zeroed) ∅ [] := by
    refine ⟨Finset.notMem_empty _, fun addr => ?_, ?_, ?_, ?_⟩
    · simp [Slot.zeroed]
    · exact fun i j addr hi => absurd hi (by simp [Slot.zeroed])
    · exact fun i addr hi => absurd hi (by simp [Slot.zeroed])
    · exact fun i => Or.inl fun st => by cases st <;> exact ⟨rfl, rfl⟩
  obtain ⟨held, hreplay, h⟩ := hstart.run cs hmalloc
  refine ⟨held, hreplay, h, ?_, ?_, h.execChecked⟩
  · intro hlost hnone
    have h' : LedgerAt slots held lost := h
    rw [hlost] at h'
    exact h'.eq_empty hnone
  · exact fun c k => PoolCall.recodeNone_of_zero_divisor h.fields_state

/-- A buffer is used before its init, while it is live, and after its destroy; the second one is
initialized twice, the second time with the block that the first gave back. -/
def twoLives : List (LifeCall Bool) :=
  [.call (.write false (some fun _ => 1) 3), .init false 1 (some (7, fun _ => 0)),
    .init true 1 (some (8, fun _ => 0)), .call (.write false (some fun _ => 1) 3),
    .call (.write true (some fun _ => 9) 3), .call (.recodeNone true),
    .call (.recodeXorBuf false true (by decide) ⟨.sse2, fun _ => 0⟩), .destroy false,
    .call (.read false (some fun _ => 0) 3), .init true 2 (some (7, fun _ => 0))]

theorem cyclicBuffer_lives_twoLives : ∃ held,
    replay ∅ (LifeCall.log (fun _ => Slot.zeroed) twoLives) = some held ∧
    (some 8 ∈ held ∧ 8 ∈ LifeCall.lost (fun _ => Slot.zeroed) twoLives) := by
  have hlost : 8 ∈ LifeCall.lost (fun _ => Slot.zeroed) twoLives := by decide
  obtain ⟨held, hreplay, h, -⟩ := cyclicBuffer_lives twoLives (by decide)
  exact ⟨held, hreplay, (h.mem 8).mpr (Or.inr hlost), hlost⟩

end Lives

end Cryptochan
