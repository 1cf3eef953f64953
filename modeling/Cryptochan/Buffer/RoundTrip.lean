import Cryptochan.Buffer.Clients

/-!
# Cryptochan.Buffer.RoundTrip — the threads of the test get their data back

Each of the three threads keeps its own part of the invariant: the writer has written the first
bytes of `sbuf` (`Writing`), the recoder those of `xbuf` over and over (`Keying`), the reader has in
`dbuf` what it was given (`Reading`).  A step of one thread leaves the parts of the others alone
(`XorSys.step_frame`).  Together with `XorSys.Delivers` they say that `xor back` restores `sbuf`
(`testCyclicBuffer_passes`).
-/

namespace Cryptochan

/-! ### Whose step it is -/

/-- The threads of the system; the one that fills `mask_buf` need not be the recoder. -/
inductive Worker
  | writer | reader | filler | recoder
  deriving DecidableEq

def XorEvent.worker : XorEvent → Worker
  | .write _ _ | .writerStep => .writer
  | .read _ _ | .readerStep => .reader
  | .fill _ | .fillerStep => .filler
  | .recodeXorBuf | .recoderStep => .recoder

theorem history_invoke {s s' : Sys} {t : Stage} {op : Op} (hs : s.invoke t op = some s') :
    s'.history = s.history := by
  unfold Sys.invoke at hs
  split_ifs at hs
  obtain rfl := Option.some.inj hs
  rfl

/-- Only a read delivers. -/
theorem delivered_afterCall_of_ne {s : Sys} {t : Stage} (ht : t ≠ .read)
    (r : CyclicBuffer × Option Region × Cont CallPc) :
    (s.afterCall t r).history.delivered = s.history.delivered := by
  obtain ⟨b, arg, c⟩ := r
  cases c with
  | goto pc => cases pc <;> cases t <;> rfl
  | ret n => cases t <;> first | rfl | exact absurd rfl ht

/-- A step of one thread, for the others. -/
theorem XorSys.step_frame {s s' : XorSys} {e : XorEvent} (hx : s.data.XorOnly)
    (hs : s.step e = some s') :
    (e.worker ≠ .writer → s'.data.calls .write = s.data.calls .write ∧
      s'.data.stream .write = s.data.stream .write) ∧
    (e.worker ≠ .reader → s'.data.calls .read = s.data.calls .read ∧
      s'.data.history.delivered = s.data.history.delivered) ∧
    (e.worker ≠ .filler → s'.mask.calls = s.mask.calls ∧ s'.mask.history = s.mask.history) := by
  have hinvoke : ∀ {t u : Stage} {arg : Option Region} {max : ℕ} {data : Sys}, u ≠ t →
      s.data.invoke t (.call arg (.load max)) = some data → data.calls u = s.data.calls u ∧
        data.stream .write = s.data.stream .write ∧ data.history = s.data.history := by
    intro t u arg max data hu hd
    refine ⟨?_, ?_, history_invoke hd⟩
    · rw [calls_invoke hd, Function.update_of_ne hu]
    · rw [stream_invoke (by cases arg <;> rfl) hd]
  have hstep : ∀ {t u : Stage} {data : Sys}, u ≠ t → s.data.step (.step t) = some data →
      data.calls u = s.data.calls u ∧ (t ≠ .write → data.stream .write = s.data.stream .write) ∧
        (t ≠ .read → data.history.delivered = s.data.history.delivered) := by
    intro t u data hu hd
    rw [Sys.step] at hd
    split at hd
    · exact absurd hd (by simp)
    · next arg pc ht =>
      obtain rfl := Option.some.inj hd
      refine ⟨?_, fun h => stream_afterCall_of_ne (Ne.symm h) _,
        fun h => delivered_afterCall_of_ne h _⟩
      rw [calls_afterCall, Function.update_of_ne hu]
    · next pc ht => exact absurd ht (hx t pc)
  cases e with
  | write src max =>
    obtain ⟨data, hd, rfl⟩ := Option.map_eq_some_iff.mp hs
    have h := hinvoke (u := .read) (by simp) hd
    exact ⟨fun hw => absurd rfl hw, fun _ => ⟨h.1, congrArg History.delivered h.2.2⟩,
      fun _ => ⟨rfl, rfl⟩⟩
  | read dest max =>
    obtain ⟨data, hd, rfl⟩ := Option.map_eq_some_iff.mp hs
    have h := hinvoke (u := .write) (by simp) hd
    exact ⟨fun _ => ⟨h.1, h.2.1⟩, fun hw => absurd rfl hw, fun _ => ⟨rfl, rfl⟩⟩
  | writerStep =>
    obtain ⟨data, hd, rfl⟩ := Option.map_eq_some_iff.mp hs
    have h := hstep (u := .read) (by simp) hd
    exact ⟨fun hw => absurd rfl hw, fun _ => ⟨h.1, h.2.2 (by simp)⟩, fun _ => ⟨rfl, rfl⟩⟩
  | readerStep =>
    obtain ⟨data, hd, rfl⟩ := Option.map_eq_some_iff.mp hs
    have h := hstep (u := .write) (by simp) hd
    exact ⟨fun _ => ⟨h.1, h.2.1 (by simp)⟩, fun hw => absurd rfl hw, fun _ => ⟨rfl, rfl⟩⟩
  | fill c =>
    simp only [XorSys.step] at hs
    split_ifs at hs
    obtain ⟨mask, -, rfl⟩ := Option.map_eq_some_iff.mp hs
    exact ⟨fun _ => ⟨rfl, rfl⟩, fun _ => ⟨rfl, rfl⟩, fun hw => absurd rfl hw⟩
  | fillerStep =>
    obtain ⟨mask, -, rfl⟩ := Option.map_eq_some_iff.mp hs
    exact ⟨fun _ => ⟨rfl, rfl⟩, fun _ => ⟨rfl, rfl⟩, fun hw => absurd rfl hw⟩
  | recodeXorBuf =>
    simp only [XorSys.step] at hs
    split_ifs at hs
    obtain rfl := Option.some.inj hs
    exact ⟨fun _ => ⟨rfl, rfl⟩, fun _ => ⟨rfl, rfl⟩, fun _ => ⟨rfl, rfl⟩⟩
  | recoderStep =>
    obtain ⟨pc, -, rfl⟩ := Option.map_eq_some_iff.mp hs
    exact ⟨fun _ => ⟨rfl, rfl⟩, fun _ => ⟨rfl, rfl⟩, fun _ => ⟨rfl, rfl⟩⟩

/-! ### What a read returns -/

theorem callStep_size (st : Stage) (buf : CyclicBuffer) (arg : Option Region) (pc : CallPc) :
    (∃ pc', (callStep st buf arg pc).2.2 = .goto pc' ∧ pc'.size ≤ pc.size) ∨
    ∃ n, (callStep st buf arg pc).2.2 = .ret n ∧ n ≤ pc.size := by
  cases pc with
  | load max =>
    by_cases hz : buf.available st = 0
    · exact Or.inr ⟨0, by simp [callStep, hz], Nat.zero_le _⟩
    · refine Or.inl ⟨copyFrom arg (min (buf.available st) max)
        (buf.split st (min (buf.available st) max)).next 0, by simp [callStep, hz], ?_⟩
      rw [size_copyFrom]
      exact Nat.min_le_right _ _
  | copy size nextIdx k =>
    cases arg with
    | none => exact Or.inl ⟨_, rfl, Nat.le_refl _⟩
    | some r => exact Or.inl ⟨_, rfl, (size_copyFrom ..).le⟩
  | storeIdx | fetchAdd => exact Or.inl ⟨_, rfl, Nat.le_refl _⟩
  | fetchSub size => exact Or.inr ⟨size, rfl, Nat.le_refl _⟩

/-- A step of a read with a destination: it goes on, or it returns and its bytes are delivered. -/
theorem Sys.step_read {s s' : Sys} {r : Region} {pc : CallPc} (hwf : s.WellFormed)
    (hop : s.calls .read = some (.call (some r) pc)) (hs : s.step (.step .read) = some s') :
    (s.returns .read = none ∧ s'.history.delivered = s.history.delivered ∧
      ∃ r' pc', s'.calls .read = some (.call (some r') pc') ∧ pc'.size ≤ pc.size) ∨
    ∃ n r', s.returns .read = some (n, some r') ∧ n ≤ pc.size ∧ s'.calls .read = none ∧
      s'.history.delivered = s.history.delivered ++ bytes r' n := by
  rw [Sys.step, hop] at hs
  obtain rfl := Option.some.inj hs
  obtain ⟨r', hr', -⟩ := callStep_read (hwf.ok _ _ _ hop)
  have hsize := callStep_size .read s.buf (some r) pc
  have hcalls := calls_afterCall (s := s) (t := .read) (callStep .read s.buf (some r) pc)
  obtain ⟨m, arg, c, hm⟩ : ∃ m arg c, callStep .read s.buf (some r) pc = (m, arg, c) :=
    ⟨_, _, _, rfl⟩
  rw [hm] at hr' hsize hcalls ⊢
  obtain rfl : arg = some r' := hr'
  rcases hsize with ⟨pc', rfl, hle⟩ | ⟨n, rfl, hle⟩
  · refine Or.inl ⟨by simp only [Sys.returns, hop, hm], ?_, r', pc', ?_, hle⟩
    · cases pc' <;> rfl
    · rw [hcalls, Function.update_self]
  · refine Or.inr ⟨n, r', by simp only [Sys.returns, hop, hm], hle, ?_, rfl⟩
    rw [hcalls, Function.update_self]

/-! ### The parts of the invariant -/

/-- The writer has written the first bytes of `sbuf`. -/
structure Writing (T : TestData) (data : Sys) (w : Runner) : Prop where
  feeds : data.Feeds T.sbuf w.bIdx (T.dataSize - w.bIdx)
  le : w.bIdx ≤ T.dataSize

/-- The reader has what it was given, and it leaves its loop with all of it. -/
structure Reading (T : TestData) (data : Sys) (dbuf : Region) (r : Runner) : Prop where
  delivered : data.history.delivered = bytes dbuf r.bIdx
  slice : ∀ arg pc, data.calls .read = some (.call arg pc) → pc.size ≤ T.dataSize - r.bIdx
  le : r.bIdx ≤ T.dataSize
  done : r.pc = .done → T.dataSize ≤ r.bIdx

/-- `xbuf` over and over. -/
def TestData.key (T : TestData) : Region := fun i => T.xbuf (i % T.maskSize)

/-- `B` bytes of the mask are written: where the recoder is in `xbuf`. -/
def Recoder.Place (maskSize B : ℕ) (r : Recoder) : Prop :=
  r.bIdx < maskSize ∧
  match r.pc with
  | .test | .stage | .write | .writing | .done => B % maskSize = r.bIdx
  | .none | .passing | .xor | .xoring | .advance =>
    r.bIdx + r.n ≤ maskSize ∧ B % maskSize = (r.bIdx + r.n) % maskSize

/-- The call on `xor_buf` that the recoder is in. -/
def Recoder.Fills (r : Recoder) (mask : Sys) : Prop :=
  match r.pc with
  | .writing => mask.calls .recode = none
  | .passing => mask.calls .write = none ∧ ∀ arg pc, mask.calls .recode ≠ some (.call arg pc)
  | _ => mask.calls .write = none ∧ mask.calls .recode = none

/-- The recoder has written the first bytes of `xbuf` over and over, and has not masked them. -/
structure Keying (T : TestData) (mask : Sys) (r : Recoder) : Prop where
  feeds : ∃ B, mask.Feeds T.key B (T.maskSize - r.bIdx) ∧ r.Place T.maskSize B
  fills : r.Fills mask
  plain : ∀ x ∈ mask.stream .recode, x = 0

/-- The invariant of the test. -/
structure ThreadTest.Inv (T : TestData) (s : ThreadTest) : Prop where
  sys : ∃ pos posm M, s.sys.Inv pos posm M ∧ s.sys.Delivers pos
  writing : Writing T s.sys.data s.writer
  reading : Reading T s.sys.data s.dbuf s.reader
  keying : Keying T s.sys.mask s.recoder

theorem Writing.frame {T : TestData} {data data' : Sys} {w : Runner} (h : Writing T data w)
    (hf : data'.calls .write = data.calls .write ∧ data'.stream .write = data.stream .write) :
    Writing T data' w := ⟨h.feeds.frame hf.1 hf.2, h.le⟩

theorem Writing.locals {T : TestData} {data : Sys} {w w' : Runner} (h : Writing T data w)
    (hb : w'.bIdx = w.bIdx) : Writing T data w' := ⟨hb.symm ▸ h.feeds, hb.symm ▸ h.le⟩

theorem Reading.locals {T : TestData} {data : Sys} {dbuf : Region} {r r' : Runner}
    (h : Reading T data dbuf r) (hb : r'.bIdx = r.bIdx)
    (hdone : r'.pc = .done → T.dataSize ≤ r.bIdx) : Reading T data dbuf r' :=
  ⟨hb.symm ▸ h.delivered, hb.symm ▸ h.slice, hb.symm ▸ h.le, fun hd => hb.symm ▸ hdone hd⟩

theorem Reading.frame {T : TestData} {data data' : Sys} {dbuf : Region} {r : Runner}
    (h : Reading T data dbuf r) (hf : data'.calls .read = data.calls .read ∧
      data'.history.delivered = data.history.delivered) : Reading T data' dbuf r :=
  ⟨hf.2.trans h.delivered, fun arg pc hc => h.slice arg pc (hf.1.symm.trans hc), h.le, h.done⟩

theorem Keying.frame {T : TestData} {mask mask' : Sys} {r : Recoder} (h : Keying T mask r)
    (hf : mask'.calls = mask.calls ∧ mask'.history = mask.history) : Keying T mask' r := by
  have hst : mask'.stream = mask.stream := by
    funext t
    rw [Sys.stream, Sys.stream, Sys.pending, Sys.pending, hf.1, hf.2]
  obtain ⟨B, hfeeds, hplace⟩ := h.feeds
  refine ⟨⟨B, hfeeds.frame (by rw [hf.1]) (by rw [hst]), hplace⟩, ?_, ?_⟩
  · have hfills := h.fills
    unfold Recoder.Fills at hfills ⊢
    rw [hf.1]
    exact hfills
  · rw [hst]
    exact h.plain

/-! ### The steps of the three threads -/

namespace ThreadTest.Inv

variable {T : TestData} {s s' : ThreadTest} {d : Draw}

/-- A step of the system keeps what the system itself keeps. -/
theorem sys_step (h : s.Inv T) {e : XorEvent} {sys : XorSys} (hs : s.sys.step e = some sys)
    (he : e.ReadsInto) :
    ∃ pos posm M, sys.Inv pos posm M ∧ sys.Delivers pos := by
  obtain ⟨pos, posm, M, hi, hd⟩ := h.sys
  exact hd.step hi he hs

theorem frames (h : s.Inv T) {e : XorEvent} {sys : XorSys} (hs : s.sys.step e = some sys) :
    (e.worker ≠ .writer → Writing T sys.data s.writer) ∧
    (e.worker ≠ .reader → Reading T sys.data s.dbuf s.reader) ∧
    (e.worker ≠ .filler → Keying T sys.mask s.recoder) := by
  obtain ⟨pos, posm, M, hi, -⟩ := h.sys
  obtain ⟨h1, h2, h3⟩ := XorSys.step_frame hi.xorOnly hs
  exact ⟨fun hw => h.writing.frame (h1 hw), fun hw => h.reading.frame (h2 hw),
    fun hw => h.keying.frame (h3 hw)⟩

theorem writerStep (h : s.Inv T) (hs : s.writerStep T d = some s') : s'.Inv T := by
  unfold ThreadTest.writerStep at hs
  split at hs
  · obtain rfl := Option.some.inj hs
    exact ⟨h.sys, h.writing.locals (Runner.head_bIdx ..), h.reading, h.keying⟩
  · obtain rfl := Option.some.inj hs
    exact ⟨h.sys, h.writing.locals (Runner.head_bIdx ..), h.reading, h.keying⟩
  · obtain ⟨sys, hsys, rfl⟩ := Option.map_eq_some_iff.mp hs
    obtain ⟨-, hr, hk⟩ := h.frames hsys
    refine ⟨h.sys_step hsys trivial, ⟨?_, h.writing.le⟩, hr (by simp [XorEvent.worker]),
      hk (by simp [XorEvent.worker])⟩
    obtain ⟨data, hd, rfl⟩ := Option.map_eq_some_iff.mp hsys
    exact h.writing.feeds.invoke (Nat.min_le_right _ _) (fun _ _ => rfl) hd
  · obtain ⟨sys, hsys, rfl⟩ := Option.map_eq_some_iff.mp hs
    obtain ⟨-, hr, hk⟩ := h.frames hsys
    refine ⟨h.sys_step hsys trivial, ?_, hr (by simp [XorEvent.worker]),
      hk (by simp [XorEvent.worker])⟩
    obtain ⟨pos, posm, M, hi, -⟩ := h.sys
    obtain ⟨data, hd, rfl⟩ := Option.map_eq_some_iff.mp hsys
    rcases h.writing.feeds.step hi.data.toWellFormed hd with
      ⟨hret, hf⟩ | ⟨n, arg, hret, hn, -, hf⟩
    · rw [hret]
      exact ⟨hf, h.writing.le⟩
    · rw [hret]
      have hle := h.writing.le
      exact ⟨hf _, (by omega : s.writer.bIdx + n ≤ T.dataSize)⟩
  · exact absurd hs (by simp)

theorem readerStep (h : s.Inv T) (hs : s.readerStep T d = some s') : s'.Inv T := by
  have hR := h.reading
  unfold ThreadTest.readerStep at hs
  split at hs
  · next hpc =>
    obtain rfl := Option.some.inj hs
    refine ⟨h.sys, h.writing, hR.locals (Runner.head_bIdx ..) ?_, h.keying⟩
    intro hdone
    simp only [Runner.head, hpc] at hdone
    split_ifs at hdone with hlt
    exact Nat.not_lt.mp hlt
  · next hpc =>
    obtain rfl := Option.some.inj hs
    refine ⟨h.sys, h.writing, hR.locals (Runner.head_bIdx ..) ?_, h.keying⟩
    intro hdone
    simp only [Runner.head, hpc] at hdone
    split_ifs at hdone
  · obtain ⟨sys, hsys, rfl⟩ := Option.map_eq_some_iff.mp hs
    obtain ⟨hw, -, hk⟩ := h.frames hsys
    refine ⟨h.sys_step hsys rfl, hw (by simp [XorEvent.worker]),
      ⟨?_, ?_, hR.le, fun hdone => absurd hdone (by simp)⟩, hk (by simp [XorEvent.worker])⟩
    · obtain ⟨data, hd, rfl⟩ := Option.map_eq_some_iff.mp hsys
      exact (congrArg History.delivered (history_invoke hd)).trans hR.delivered
    · obtain ⟨data, hd, rfl⟩ := Option.map_eq_some_iff.mp hsys
      intro arg pc hc
      rw [calls_invoke hd, Function.update_self] at hc
      obtain ⟨-, rfl⟩ := Op.call.inj (Option.some.inj hc)
      exact Nat.min_le_right _ _
  · obtain ⟨sys, hsys, rfl⟩ := Option.map_eq_some_iff.mp hs
    obtain ⟨hw, -, hk⟩ := h.frames hsys
    refine ⟨h.sys_step hsys trivial, hw (by simp [XorEvent.worker]), ?_,
      hk (by simp [XorEvent.worker])⟩
    obtain ⟨pos, posm, M, hi, hdel⟩ := h.sys
    obtain ⟨data, hd, rfl⟩ := Option.map_eq_some_iff.mp hsys
    -- the call in progress has a destination
    obtain ⟨r, pc, hop⟩ : ∃ r pc, s.sys.data.calls .read = some (.call (some r) pc) := by
      cases hop : s.sys.data.calls .read with
      | none =>
        rw [Sys.step, hop] at hd
        exact absurd hd (by simp)
      | some op =>
        cases op with
        | recodeNone pc => exact absurd hop (hi.xorOnly _ _)
        | call arg pc =>
          obtain ⟨r, rfl⟩ := Option.isSome_iff_exists.mp (hdel.copies _ _ hop)
          exact ⟨r, pc, rfl⟩
    have hle := hR.le
    have hslice := hR.slice _ _ hop
    rcases Sys.step_read hi.data.toWellFormed hop hd with
      ⟨hret, hdv, r', pc', hc', hsz⟩ | ⟨n, r', hret, hn, hc', hdv⟩
    · rw [hret]
      refine ⟨hdv.trans hR.delivered, ?_, hle, hR.done⟩
      intro arg pc'' hc
      obtain ⟨-, rfl⟩ := Op.call.inj (Option.some.inj (hc'.symm.trans hc))
      exact hsz.trans hslice
    · rw [hret]
      refine ⟨?_, ?_, ?_, ?_⟩
      · rw [hdv, hR.delivered]
        exact (bytes_splice s.dbuf r' s.reader.bIdx n).symm
      · intro arg pc'' hc
        exact absurd (hc'.symm.trans hc) (by simp)
      · exact (by omega : s.reader.bIdx + n ≤ T.dataSize)
      · intro hdone
        exact absurd hdone (by simp [Runner.after])
  · exact absurd hs (by simp)

/-- A local step of the recoder. -/
theorem keying_local (h : s.Inv T) {r : Recoder} (hb : r.bIdx = s.recoder.bIdx)
    (hplace : ∀ B, s.recoder.Place T.maskSize B → r.Place T.maskSize B)
    (hfills : s.recoder.Fills s.sys.mask → r.Fills s.sys.mask) :
    ({ s with recoder := r } : ThreadTest).Inv T := by
  obtain ⟨B, hfeeds, hp⟩ := h.keying.feeds
  exact ⟨h.sys, h.writing, h.reading, ⟨B, hb.symm ▸ hfeeds, hplace B hp⟩, hfills h.keying.fills,
    h.keying.plain⟩

/-- The recoder starts to write the next slice of `xbuf`. -/
theorem recoder_write (h : s.Inv T) {mask : Sys} {max : ℕ} (hpc : s.recoder.pc = .write)
    (hmax : max ≤ T.maskSize - s.recoder.bIdx)
    (hs : s.sys.mask.invoke .write (.call (some (T.xbuf.from s.recoder.bIdx)) (.load max)) =
      some mask) : Keying T mask { s.recoder with pc := .writing } := by
  obtain ⟨B, hfeeds, hp⟩ := h.keying.feeds
  have hfills := h.keying.fills
  simp only [Recoder.Place, hpc] at hp
  simp only [Recoder.Fills, hpc] at hfills
  refine ⟨⟨B, hfeeds.invoke hmax ?_ hs, hp⟩, ?_, ?_⟩
  · intro k hk
    unfold Region.from TestData.key
    rw [Nat.add_mod, hp.2, Nat.mod_eq_of_lt (show k < T.maskSize by omega),
      Nat.mod_eq_of_lt (by omega)]
  · exact (congrFun (calls_invoke hs) .recode).trans
      ((Function.update_of_ne (by simp) _ _).trans hfills.2)
  · rw [stream_invoke rfl hs]
    exact h.keying.plain

/-- It starts `recode_none`. -/
theorem recoder_none (h : s.Inv T) {mask : Sys} (hpc : s.recoder.pc = .none)
    (hs : s.sys.mask.invoke .recode (.recodeNone .load) = some mask) :
    Keying T mask { s.recoder with pc := .passing } := by
  obtain ⟨B, hfeeds, hp⟩ := h.keying.feeds
  have hfills := h.keying.fills
  simp only [Recoder.Place, hpc] at hp
  simp only [Recoder.Fills, hpc] at hfills
  have hst := stream_invoke (show (Op.recodeNone .load).pending = [] from rfl) hs
  have hc := calls_invoke hs
  have hw : mask.calls .write = s.sys.mask.calls .write := by
    rw [hc, Function.update_of_ne (by simp)]
  refine ⟨⟨B, hfeeds.frame hw (by rw [hst]), hp⟩, ⟨hw.trans hfills.1, ?_⟩, ?_⟩
  · intro arg pc hu
    rw [hc, Function.update_self] at hu
    exact absurd hu (by simp)
  · rw [hst]
    exact h.keying.plain

/-- A step of its write. -/
theorem recoder_writing (h : s.Inv T) (hwf : s.sys.mask.WellFormed) {mask : Sys}
    (hpc : s.recoder.pc = .writing) (hs : s.sys.mask.step (.step .write) = some mask) :
    Keying T mask (s.recoder.afterFill (s.sys.mask.returns .write)) := by
  obtain ⟨B, hfeeds, hp⟩ := h.keying.feeds
  have hfills := h.keying.fills
  simp only [Recoder.Place, hpc] at hp
  simp only [Recoder.Fills, hpc] at hfills
  have hc : mask.calls .recode = none ∧ mask.stream .recode = s.sys.mask.stream .recode := by
    rw [Sys.step] at hs
    split at hs
    · exact absurd hs (by simp)
    · next arg pc ht =>
      obtain rfl := Option.some.inj hs
      refine ⟨?_, stream_afterCall_of_ne (by simp) _⟩
      rw [calls_afterCall, Function.update_of_ne (by simp)]
      exact hfills
    · next pc ht => exact absurd (hwf.recoder _ _ ht) (by simp)
  rcases hfeeds.step hwf hs with ⟨hret, hf⟩ | ⟨n, arg, hret, hn, hw, hf⟩
  · rw [hret]
    refine ⟨⟨B, hf, ?_⟩, ?_, ?_⟩
    · simp only [Recoder.afterFill, Recoder.Place, hpc]
      exact hp
    · simp only [Recoder.afterFill, Recoder.Fills, hpc]
      exact hc.1
    · rw [hc.2]
      exact h.keying.plain
  · rw [hret]
    have hle : s.recoder.bIdx + n ≤ T.maskSize := by omega
    refine ⟨⟨B + n, ?_, ?_⟩, ?_, ?_⟩
    · exact hf _
    · simp only [Recoder.afterFill, Recoder.Place, hpc]
      refine ⟨hp.1, hle, ?_⟩
      rw [← hp.2, Nat.mod_add_mod]
    · simp only [Recoder.afterFill, Recoder.Fills, hpc]
      exact ⟨hw, hc.1⟩
    · rw [hc.2]
      exact h.keying.plain

/-- A step of its `recode_none`. -/
theorem recoder_passing (h : s.Inv T) {mask : Sys} (hpc : s.recoder.pc = .passing)
    (hs : s.sys.mask.step (.step .recode) = some mask) :
    Keying T mask (s.recoder.afterFill (s.sys.mask.returns .recode)) := by
  obtain ⟨B, hfeeds, hp⟩ := h.keying.feeds
  obtain ⟨hw, hfills⟩ : s.sys.mask.calls .write = none ∧
      ∀ arg pc, s.sys.mask.calls .recode ≠ some (.call arg pc) := by
    have hf := h.keying.fills
    simp only [Recoder.Fills, hpc] at hf
    exact hf
  simp only [Recoder.Place, hpc] at hp
  rw [Sys.step] at hs
  split at hs
  · exact absurd hs (by simp)
  · next arg pc ht => exact absurd ht (hfills arg pc)
  · next pc ht =>
    obtain rfl := Option.some.inj hs
    obtain ⟨hst, hmasked⟩ := stream_afterNone ht
    have hcalls := calls_afterNone (s := s.sys.mask) (t := .recode) (noneStep s.sys.mask.buf pc)
    have hplain : ∀ x ∈ (s.sys.mask.afterNone .recode (noneStep s.sys.mask.buf pc)).stream .recode,
        x = 0 := by
      rw [hmasked]
      intro x hx
      rcases List.mem_append.mp hx with hx | hx
      · exact h.keying.plain x hx
      · cases pc with
        | load => exact List.eq_of_mem_replicate hx
        | storeIdx | fetchAdd | storeZero => exact absurd hx (by simp [noneBytes])
    obtain ⟨m, c, hm⟩ : ∃ m c, noneStep s.sys.mask.buf pc = (m, c) := ⟨_, _, rfl⟩
    rw [hm] at hst hcalls hplain ⊢
    have hw' : (s.sys.mask.afterNone .recode (m, c)).calls .write = s.sys.mask.calls .write := by
      rw [hcalls, Function.update_of_ne (by simp)]
    have hf' := hfeeds.frame hw' hst
    cases c with
    | goto pc' =>
      have hret : s.sys.mask.returns .recode = none := by simp only [Sys.returns, ht, hm]
      rw [hret]
      refine ⟨⟨B, hf', ?_⟩, ?_, hplain⟩
      · simp only [Recoder.afterFill, Recoder.Place, hpc]
        exact hp
      · simp only [Recoder.afterFill, Recoder.Fills, hpc]
        refine ⟨hw'.trans hw, ?_⟩
        intro arg pc'' hu
        rw [hcalls, Function.update_self] at hu
        exact absurd hu (by simp)
    | ret n =>
      have hret : s.sys.mask.returns .recode = some (n, none) := by simp only [Sys.returns, ht, hm]
      rw [hret]
      refine ⟨⟨B, ?_, ?_⟩, ?_, hplain⟩
      · simp only [Recoder.afterFill, hpc]
        exact hf'
      · simp only [Recoder.afterFill, Recoder.Place, hpc]
        exact hp
      · simp only [Recoder.afterFill, Recoder.Fills, hpc]
        refine ⟨hw'.trans hw, ?_⟩
        rw [hcalls, Function.update_self]

/-- A step of the recoder in the system, which the writer and the reader do not see. -/
theorem of_sys_step (h : s.Inv T) {e : XorEvent} {sys : XorSys} {r : Recoder}
    (hs : s.sys.step e = some sys) (he : e.ReadsInto)
    (hworker : e.worker ≠ .writer ∧ e.worker ≠ .reader) (hk : Keying T sys.mask r) :
    ({ s with sys, recoder := r } : ThreadTest).Inv T := by
  obtain ⟨hw, hr, -⟩ := h.frames hs
  exact ⟨h.sys_step hs he, hw hworker.1, hr hworker.2, hk⟩

/-- The same for a step that the mask does not see either. -/
theorem of_xor_step (h : s.Inv T) {e : XorEvent} {sys : XorSys} {r : Recoder}
    (hs : s.sys.step e = some sys) (he : e.ReadsInto) (hworker : e.worker = .recoder)
    (hb : r.bIdx = s.recoder.bIdx)
    (hplace : ∀ B, s.recoder.Place T.maskSize B → r.Place T.maskSize B)
    (hfills : s.recoder.Fills sys.mask → r.Fills sys.mask) :
    ({ s with sys, recoder := r } : ThreadTest).Inv T := by
  obtain ⟨-, -, hk⟩ := h.frames hs
  obtain ⟨⟨B, hfeeds, hp⟩, hf, hplain⟩ := hk (by simp [hworker])
  exact h.of_sys_step hs he (by simp [hworker])
    ⟨⟨B, hb.symm ▸ hfeeds, hplace B hp⟩, hfills hf, hplain⟩

theorem recoderStep_test (h : s.Inv T) (hpc : s.recoder.pc = .test)
    (hs : s.recoderStep T d = some s') : s'.Inv T := by
  simp only [ThreadTest.recoderStep, hpc] at hs
  obtain rfl := Option.some.inj hs
  refine h.keying_local rfl (fun B hp => ?_) (fun hf => ?_)
  · simp only [Recoder.Place, hpc] at hp ⊢
    split_ifs <;> exact hp
  · simp only [Recoder.Fills, hpc] at hf ⊢
    split_ifs <;> exact hf

theorem recoderStep_stage (h : s.Inv T) (hpc : s.recoder.pc = .stage)
    (hs : s.recoderStep T d = some s') : s'.Inv T := by
  simp only [ThreadTest.recoderStep, hpc] at hs
  obtain rfl := Option.some.inj hs
  refine h.keying_local rfl (fun B hp => ?_) (fun hf => ?_)
  · simp only [Recoder.Place, hpc] at hp ⊢
    split_ifs <;> exact hp
  · simp only [Recoder.Fills, hpc] at hf ⊢
    split_ifs <;> exact hf

theorem recoderStep_write (h : s.Inv T) (hpc : s.recoder.pc = .write)
    (hs : s.recoderStep T d = some s') : s'.Inv T := by
  simp only [ThreadTest.recoderStep, hpc] at hs
  obtain ⟨sys, hsys, rfl⟩ := Option.map_eq_some_iff.mp hs
  refine h.of_sys_step hsys trivial (by simp [XorEvent.worker]) ?_
  simp only [XorSys.step] at hsys
  split_ifs at hsys
  obtain ⟨mask, hm, rfl⟩ := Option.map_eq_some_iff.mp hsys
  exact h.recoder_write hpc (Nat.min_le_right _ _) hm

theorem recoderStep_none (h : s.Inv T) (hpc : s.recoder.pc = .none)
    (hs : s.recoderStep T d = some s') : s'.Inv T := by
  simp only [ThreadTest.recoderStep, hpc] at hs
  obtain ⟨sys, hsys, rfl⟩ := Option.map_eq_some_iff.mp hs
  refine h.of_sys_step hsys trivial (by simp [XorEvent.worker]) ?_
  simp only [XorSys.step] at hsys
  split_ifs at hsys
  obtain ⟨mask, hm, rfl⟩ := Option.map_eq_some_iff.mp hsys
  exact h.recoder_none hpc hm

theorem recoderStep_writing (h : s.Inv T) (hpc : s.recoder.pc = .writing)
    (hs : s.recoderStep T d = some s') : s'.Inv T := by
  have hfills := h.keying.fills
  simp only [Recoder.Fills, hpc] at hfills
  obtain ⟨pos, posm, M, hi, -⟩ := h.sys
  simp only [ThreadTest.recoderStep, hpc] at hs
  obtain ⟨sys, hsys, rfl⟩ := Option.map_eq_some_iff.mp hs
  refine h.of_sys_step hsys trivial (by simp [XorEvent.worker]) ?_
  obtain ⟨mask, hm, rfl⟩ := Option.map_eq_some_iff.mp hsys
  -- no `recode_none` is in progress, so it is the write that goes on
  have hst : s.sys.fillerStage = .write := by
    unfold XorSys.fillerStage at hm ⊢
    split_ifs with hw
    · rfl
    · rw [if_neg hw, Sys.step, hfills] at hm
      exact absurd hm (by simp)
  rw [hst] at hm ⊢
  exact h.recoder_writing hi.mask.toWellFormed hpc hm

theorem recoderStep_passing (h : s.Inv T) (hpc : s.recoder.pc = .passing)
    (hs : s.recoderStep T d = some s') : s'.Inv T := by
  have hfills := h.keying.fills
  simp only [Recoder.Fills, hpc] at hfills
  simp only [ThreadTest.recoderStep, hpc] at hs
  obtain ⟨sys, hsys, rfl⟩ := Option.map_eq_some_iff.mp hs
  refine h.of_sys_step hsys trivial (by simp [XorEvent.worker]) ?_
  obtain ⟨mask, hm, rfl⟩ := Option.map_eq_some_iff.mp hsys
  have hst : s.sys.fillerStage = .recode := by simp [XorSys.fillerStage, hfills.1]
  rw [hst] at hm ⊢
  exact h.recoder_passing hpc hm

theorem recoderStep_xor (h : s.Inv T) (hpc : s.recoder.pc = .xor)
    (hs : s.recoderStep T d = some s') : s'.Inv T := by
  simp only [ThreadTest.recoderStep, hpc] at hs
  obtain ⟨sys, hsys, rfl⟩ := Option.map_eq_some_iff.mp hs
  refine h.of_xor_step hsys trivial rfl rfl (fun B hp => ?_) (fun hf => ?_)
  · simp only [Recoder.Place, hpc] at hp ⊢
    exact hp
  · simp only [Recoder.Fills, hpc] at hf ⊢
    exact hf

theorem recoderStep_xoring (h : s.Inv T) (hpc : s.recoder.pc = .xoring)
    (hs : s.recoderStep T d = some s') : s'.Inv T := by
  simp only [ThreadTest.recoderStep, hpc] at hs
  obtain ⟨sys, hsys, rfl⟩ := Option.map_eq_some_iff.mp hs
  refine h.of_xor_step hsys trivial rfl rfl (fun B hp => ?_) (fun hf => ?_)
  · simp only [Recoder.Place, hpc] at hp ⊢
    split_ifs <;> exact hp
  · simp only [Recoder.Fills, hpc] at hf ⊢
    split_ifs <;> exact hf

/-- The index of the mask goes on by what was written, and back to the start at the end. -/
theorem recoderStep_advance (h : s.Inv T) (hpc : s.recoder.pc = .advance)
    (hs : s.recoderStep T d = some s') : s'.Inv T := by
  have hfills := h.keying.fills
  simp only [Recoder.Fills, hpc] at hfills
  obtain ⟨B, hfeeds, hp⟩ := h.keying.feeds
  simp only [Recoder.Place, hpc] at hp
  obtain ⟨hlt, hle, hB⟩ := hp
  simp only [ThreadTest.recoderStep, hpc] at hs
  obtain rfl := Option.some.inj hs
  refine ⟨h.sys, h.writing, h.reading, ⟨B, hfeeds.idle hfills.1 _, ?_⟩, hfills, h.keying.plain⟩
  by_cases hend : s.recoder.bIdx + s.recoder.n = T.maskSize
  · simp only [Recoder.Place, if_pos hend]
    rw [hB, hend, Nat.mod_self]
    exact ⟨by omega, rfl⟩
  · simp only [Recoder.Place, if_neg hend]
    rw [hB, Nat.mod_eq_of_lt (by omega)]
    exact ⟨by omega, rfl⟩

theorem recoderStep (h : s.Inv T) (hs : s.recoderStep T d = some s') : s'.Inv T := by
  cases hpc : s.recoder.pc with
  | test => exact h.recoderStep_test hpc hs
  | stage => exact h.recoderStep_stage hpc hs
  | write => exact h.recoderStep_write hpc hs
  | writing => exact h.recoderStep_writing hpc hs
  | none => exact h.recoderStep_none hpc hs
  | passing => exact h.recoderStep_passing hpc hs
  | xor => exact h.recoderStep_xor hpc hs
  | xoring => exact h.recoderStep_xoring hpc hs
  | advance => exact h.recoderStep_advance hpc hs
  | done => simp [ThreadTest.recoderStep, hpc] at hs

/-- **Step lemma.** -/
theorem step (h : s.Inv T) {e : ThreadEvent} (hs : s.step T e = some s') : s'.Inv T := by
  cases e with
  | go =>
    simp only [ThreadTest.step] at hs
    split_ifs at hs
    obtain rfl := Option.some.inj hs
    exact ⟨h.sys, h.writing, h.reading, h.keying⟩
  | writer d => exact h.writerStep hs
  | reader d => exact h.readerStep hs
  | recoder d => exact h.recoderStep hs

end ThreadTest.Inv

/-! ### `xor back` -/

section XorBack

variable {T : TestData}

/-- An index that goes back to the start when it meets the end. -/
theorem wrap_mod {M d n : ℕ} (hn : d % M + n ≤ M) :
    (if d % M + n = M then 0 else d % M + n) = (d + n) % M := by
  split_ifs with h
  · rw [← Nat.mod_add_mod, h, Nat.mod_self]
  · exact (Nat.mod_eq_of_lt (by omega)).symm.trans (Nat.mod_add_mod ..)

/-- The mask index stays the data index modulo `__MASK_SIZE`. -/
theorem xorBack_apply (hmask : 0 < T.maskSize) (dbuf : Region) (d i : ℕ) :
    T.xorBack dbuf d (d % T.maskSize) i =
      if d ≤ i ∧ i < T.dataSize then dbuf i ^^^ T.key i else dbuf i := by
  induction hn : T.dataSize - d generalizing dbuf d with
  | zero =>
    rw [TestData.xorBack, if_neg (by omega), if_neg (by omega)]
  | succ n ih =>
    rw [TestData.xorBack, if_pos (by omega), wrap_mod (Nat.mod_lt d hmask), ih _ _ (by omega)]
    rcases Nat.lt_trichotomy i d with h | rfl | h
    · rw [if_neg (by omega), if_neg (by omega), Function.update_of_ne (by omega)]
    · rw [if_neg (by omega), if_pos (by omega), Function.update_self]
      rfl
    · rw [Function.update_of_ne (by omega)]
      by_cases hlt : i < T.dataSize
      · rw [if_pos (by omega), if_pos (by omega)]
      · rw [if_neg (by omega), if_neg (by omega)]

end XorBack

/-! ### The test -/

/-- Every byte the reader has is a byte of `sbuf` XOR the one of `xbuf` at its place. -/
theorem ThreadTest.Inv.dbuf_eq {T : TestData} {s : ThreadTest} (h : s.Inv T) {i : ℕ}
    (hi : i < s.reader.bIdx) : s.dbuf i = T.sbuf i ^^^ T.key i := by
  obtain ⟨pos, posm, M, hinv, hdel⟩ := h.sys
  have hpre : s.sys.data.history.delivered <+: s.sys.history.recoded :=
    (List.prefix_append _ _).trans hdel.beginning
  have hlen : i < s.sys.data.history.delivered.length := by
    rw [h.reading.delivered, length_bytes]
    exact hi
  obtain ⟨hw, hk, e⟩ := hinv.recoded_eq (hlen.trans_le hpre.length_le)
  have hdbuf : s.sys.data.history.delivered[i] = s.dbuf i := by
    simp only [h.reading.delivered, getElem_bytes]
  have hsbuf : s.sys.data.history.written[i] = T.sbuf i := by
    have hW : s.sys.data.history.written <+: s.sys.data.stream .write := List.prefix_append _ _
    rw [hW.getElem hw]
    simp only [h.writing.feeds.stream, getElem_bytes]
  have hkey : s.sys.history.keyed[i] = T.key i := by
    obtain ⟨B, hfeeds, -⟩ := h.keying.feeds
    have hM : i < (s.sys.mask.stream .recode).length := by
      rw [hinv.keyed, List.length_take, length_xorStream hinv.mask.streams.le] at hk
      omega
    have hz : (s.sys.mask.stream .recode)[i] = 0 := h.keying.plain _ (List.getElem_mem hM)
    simp only [hinv.keyed, List.getElem_take, xorStream, List.getElem_zipWith, hz, UInt8.xor_zero]
    simp only [hfeeds.stream, getElem_bytes]
  rw [← hdbuf, (hpre.getElem hlen).trans e, hsbuf, hkey]

theorem ThreadTest.Inv.start {malloc mallocXor : ℕ → Option Region} {buf xorBuf : CyclicBuffer}
    (hinit : cyclicBufferInit malloc 1 = .ok buf)
    (hinitXor : cyclicBufferInit mallocXor 1 = .ok xorBuf) {T : TestData} (hmask : 0 < T.maskSize)
    (dbuf : Region) : (ThreadTest.start buf xorBuf dbuf).Inv T := by
  refine ⟨⟨_, _, _, XorSys.Inv.start (start_inv (by decide) (by decide) hinit)
      (start_inv (by decide) (by decide) hinitXor), fun _ _ hc => ?_, List.nil_prefix, rfl⟩,
    ⟨⟨rfl, fun _ hop => ?_⟩, Nat.zero_le _⟩,
    ⟨rfl, fun _ _ hc => ?_, Nat.zero_le _, fun hd => ?_⟩,
    ⟨⟨0, ⟨rfl, fun _ hop => ?_⟩, hmask, Nat.zero_mod _⟩, ⟨rfl, rfl⟩, fun _ hx => ?_⟩⟩
  · exact absurd hc (by simp [ThreadTest.start, XorSys.start, Sys.start])
  · exact absurd hop (by simp [ThreadTest.start, XorSys.start, Sys.start])
  · exact absurd hc (by simp [ThreadTest.start, XorSys.start, Sys.start])
  · exact absurd hd (by simp [ThreadTest.start])
  · exact absurd hop (by simp [ThreadTest.start, XorSys.start, Sys.start])
  · exact absurd hx List.not_mem_nil

/-- `xor back` restores what the reader has read to the end. -/
theorem ThreadTest.Inv.passes {T : TestData} {s : ThreadTest} (h : s.Inv T)
    (hmask : 0 < T.maskSize) (hdone : s.reader.pc = .done) : T.Passes s.dbuf := by
  refine bytes_congr ?_
  intro i hi
  have e := xorBack_apply hmask s.dbuf 0 i
  rw [Nat.zero_mod, if_pos ⟨Nat.zero_le _, hi⟩] at e
  rw [e, h.dbuf_eq (hi.trans_le (h.reading.done hdone)), UInt8.xor_assoc, UInt8.xor_self,
    UInt8.xor_zero]

/-- **The threads of the test get their data back**: whatever the interleaving of the writer, the
recoder and the reader and whatever sizes they draw, no thread leaves its block, every byte the
reader has is the byte of `sbuf` XOR that of `xbuf`, and once the reader is done `memcmp` finds no
difference. -/
theorem testCyclicBuffer_passes (malloc mallocXor : ℕ → Option Region) (buf xorBuf : CyclicBuffer)
    (hinit : cyclicBufferInit malloc 1 = .ok buf)
    (hinitXor : cyclicBufferInit mallocXor 1 = .ok xorBuf) (T : TestData) (hmask : 0 < T.maskSize)
    (dbuf : Region) (es : List ThreadEvent) (s : ThreadTest)
    (hrun : Run.run (ThreadTest.step T) (ThreadTest.start buf xorBuf dbuf) es = some s) :
    (s.writer.bIdx ≤ T.dataSize ∧ s.reader.bIdx ≤ T.dataSize ∧ s.recoder.bIdx < T.maskSize) ∧
    (∀ i < s.reader.bIdx, s.dbuf i = T.sbuf i ^^^ T.xbuf (i % T.maskSize)) ∧
    (s.reader.pc = .done → T.Passes s.dbuf) := by
  have h : s.Inv T := Run.run_invariant (fun _ => True) (ThreadTest.Inv T)
    (ThreadTest.Inv.start hinit hinitXor hmask dbuf) (fun _ _ _ _ hi hs => hi.step hs)
    (fun _ _ => trivial) hrun
  obtain ⟨B, -, hp⟩ := h.keying.feeds
  exact ⟨⟨h.writing.le, h.reading.le, hp.1⟩, fun i hi => h.dbuf_eq hi, h.passes hmask⟩

/-- Two bytes; the mask is one byte long, so the recoder goes round twice. -/
def sevenNine : TestData := ⟨fun i => if i = 0 then 7 else 9, fun _ => 3, 2, 1⟩

def sevenNineRun : List ThreadEvent :=
  .go :: List.replicate 10 (.writer ⟨0, 1⟩) ++ List.replicate 50 (.recoder ⟨0, 1⟩) ++
  List.replicate 10 (.reader ⟨0, 1⟩)

theorem testCyclicBuffer_passes_sevenNine : ∃ s,
    Run.run (ThreadTest.step sevenNine) (ThreadTest.start oneChunk oneChunk fun _ => 0)
      sevenNineRun = some s ∧ bytes s.dbuf 2 = [4, 10] ∧ sevenNine.Passes s.dbuf := by
  have h : (Run.run (ThreadTest.step sevenNine) (ThreadTest.start oneChunk oneChunk fun _ => 0)
      sevenNineRun).map (fun s => (s.reader.pc, bytes s.dbuf 2)) = some (.done, [4, 10]) := by
    decide +kernel
  obtain ⟨s, hs, he⟩ := Option.map_eq_some_iff.mp h
  obtain ⟨hdone, hbytes⟩ := Prod.mk.inj he
  exact ⟨s, hs, hbytes, (testCyclicBuffer_passes (fun _ => some fun _ => 0)
    (fun _ => some fun _ => 0) oneChunk oneChunk oneChunk_init oneChunk_init sevenNine (by decide)
    (fun _ => 0) sevenNineRun s hs).2.2 hdone⟩

end Cryptochan
