import Cryptochan.Lib.Run
import Cryptochan.Machine

/-!
# Cryptochan.Queue.Model — `cyclic_queue.c`, one atomic step at a time

Any number of threads `τ` push to and take from one queue.  An index word is also a lock:
`UINT32_MAX` in `push_idx` or `take_idx` means that a thread holds it and has its value in a local.
Every access to shared memory is a step of its own (an element is copied byte by byte), except that
the owner of both locks reads the fields together with what it does.  `PushPc` and `TakePc` list the
program points with the live locals; the source writes `push_idx` and `take_idx` for the locals too.

Memory blocks have addresses.  What `malloc` returns, and whether a weak compare-exchange fails
spuriously, is a choice of the step.  `History` records the elements and the results of the calls;
no step of the code reads it.
-/

namespace Cryptochan.Queue

/-- `CYCLIC_QUEUE_MIN_CAPACITY`. -/
def cyclicQueueMinCapacity : ℕ := 0x40

/-- `CYCLIC_QUEUE_MAX_CAPACITY`. -/
def cyclicQueueMaxCapacity : ℕ := 0x40000

/-- `CYCLIC_QUEUE_MAX_ELEMENT_SIZE`. -/
def cyclicQueueMaxElementSize : ℕ := 0x400

/-- `cyclic_queue_t`; `dataPtr` is the address of a block. -/
structure CyclicQueue where
  dataPtr : ℕ
  elementSize : ℕ
  capacity : ℕ
  maxCapacity : ℕ
  size : ℕ
  takeIdx : ℕ
  pushIdx : ℕ

/-! ### Memory -/

/-- An allocated block. -/
structure Block where
  size : ℕ
  data : Region

/-- The block at every address; `none` where nothing is allocated. -/
abbrev Heap := ℕ → Option Block

namespace Heap

def load (heap : Heap) (addr off : ℕ) : UInt8 := (heap addr).elim 0 fun b => b.data off

def store (heap : Heap) (addr off : ℕ) (v : UInt8) : Heap :=
  Function.update heap addr
    ((heap addr).map fun b => { b with data := Function.update b.data off v })

def free (heap : Heap) (addr : ℕ) : Heap := Function.update heap addr none

/-- A new block at a free address. -/
def alloc (heap : Heap) (addr size : ℕ) (data : Region) : Heap :=
  Function.update heap addr (some ⟨size, data⟩)

end Heap

/-- What all threads share. -/
structure Shared where
  queue : CyclicQueue
  heap : Heap

/-- The choices of a step: whether a compare-exchange fails spuriously, and the block `malloc` returns
with what is in it (`none`: it fails). -/
structure Choice where
  spurious : Bool
  block : Option (ℕ × Region)

/-- `%d` of a `uint32_t`. -/
def decimalInt (n : ℕ) : CString :=
  if n < 2 ^ 31 then decimal n else ascii "-" ++ decimal (2 ^ 32 - n)

/-- `cyclic_queue_init`: the queue, or what is printed (the reason that `perror` adds is left out). -/
def cyclicQueueInit (heap : Heap) (elementSize initialCapacity : ℕ) (block : Option (ℕ × Region)) :
    Except CString Shared :=
  let initialCapacity :=
    if initialCapacity < cyclicQueueMinCapacity then cyclicQueueMinCapacity else initialCapacity
  if initialCapacity > cyclicQueueMaxCapacity then
    .error (ascii "ERROR: cyclic_queue_init: exceeded max capacity: " ++ decimalInt initialCapacity ++
      ascii " (max: " ++ decimalInt cyclicQueueMaxCapacity ++ ascii ")\n")
  else if elementSize > cyclicQueueMaxElementSize then
    .error (ascii "ERROR: cyclic_queue_init: exceeded element size: " ++ decimalInt elementSize ++
      ascii " (max: " ++ decimalInt cyclicQueueMaxElementSize ++ ascii ")\n")
  else match block with
  | none => .error (ascii "ERROR: cyclic_queue_init: malloc")
  | some (addr, data) =>
    .ok ⟨⟨addr, elementSize, initialCapacity, cyclicQueueMaxCapacity, 0, 0, 0⟩,
      heap.alloc addr (u32Mul initialCapacity elementSize) data⟩

/-! ### Program points -/

/-- Where `cyclic_queue_push` is.  The locals are `push_idx`, `take_idx` (`UINT32_MAX`: not locked),
`size`, `new_capacity`, `new_data_ptr`. -/
inductive PushPc
  | lockPushLoad
  | lockPushCas (pushIdx : ℕ)
  | loadSize (pushIdx : ℕ)
  | testFull (pushIdx size : ℕ)
  | lockTakeLoad (pushIdx : ℕ)
  | lockTakeCas (pushIdx takeIdx : ℕ)
  | reloadSize (pushIdx takeIdx : ℕ)
  | retestFull (pushIdx takeIdx size : ℕ)
  | calcCapacity (pushIdx takeIdx size : ℕ)
  | malloc (pushIdx takeIdx size newCapacity : ℕ)
  | move (pushIdx takeIdx size newCapacity newDataPtr k : ℕ)
  | free (size newCapacity newDataPtr : ℕ)
  | setData (size newCapacity newDataPtr : ℕ)
  | setCapacity (size newCapacity : ℕ)
  | readData (pushIdx takeIdx : ℕ)
  | copy (pushIdx takeIdx dataPtr k : ℕ)
  | advance (pushIdx takeIdx : ℕ)
  | fetchAdd (pushIdx takeIdx : ℕ)
  | unlockTake (pushIdx takeIdx : ℕ) (result : Bool)
  | unlockPush (pushIdx : ℕ) (result : Bool)
  deriving DecidableEq, Repr

/-- Where `cyclic_queue_take` is. -/
inductive TakePc
  | loadSize
  | lockTakeLoad
  | lockTakeCas (takeIdx : ℕ)
  | reloadSize (takeIdx : ℕ)
  | readData (takeIdx : ℕ)
  | copy (takeIdx dataPtr k : ℕ)
  | advance (takeIdx : ℕ)
  | fetchSub (takeIdx : ℕ)
  | unlockTake (takeIdx : ℕ) (result : Bool)
  deriving DecidableEq, Repr

/-- How a step of a call ends. -/
inductive Cont (π : Type)
  | goto (pc : π)
  | ret (result : Bool)
  deriving DecidableEq, Repr

/-- After the loop: the take lock is given back only if `take_idx` says that it was taken. -/
def unlockFrom (pushIdx takeIdx : ℕ) (result : Bool) : PushPc :=
  if takeIdx ≠ uint32Max then .unlockTake pushIdx takeIdx result else .unlockPush pushIdx result

/-- `size_till_end` and the number of bytes the one or two `memcpy` of the growth move. -/
def moveLength (q : CyclicQueue) (takeIdx size : ℕ) : ℕ :=
  if u32Add takeIdx size > q.capacity then
    let sizeTillEnd := u32Sub q.capacity takeIdx
    u32Mul sizeTillEnd q.elementSize + u32Mul (u32Sub size sizeTillEnd) q.elementSize
  else u32Mul size q.elementSize

/-- Where the `k`-th of these bytes comes from. -/
def moveSource (q : CyclicQueue) (takeIdx size k : ℕ) : ℕ :=
  if u32Add takeIdx size > q.capacity then
    let first := u32Mul (u32Sub q.capacity takeIdx) q.elementSize
    if k < first then u32Mul takeIdx q.elementSize + k else k - first
  else u32Mul takeIdx q.elementSize + k

/-! ### Steps -/

namespace Shared

variable (m : Shared)

/-- Change the queue only. -/
def withQueue (q : CyclicQueue) : Shared := { m with queue := q }

def setPushIdx (i : ℕ) : Shared := m.withQueue { m.queue with pushIdx := i }

def setTakeIdx (i : ℕ) : Shared := m.withQueue { m.queue with takeIdx := i }

def setSize (n : ℕ) : Shared := m.withQueue { m.queue with size := n }

/-- The caller may set `max_capacity` after the initialization. -/
def setMaxCapacity (n : ℕ) : Shared := m.withQueue { m.queue with maxCapacity := n }

def storeByte (addr off : ℕ) (v : UInt8) : Shared := { m with heap := m.heap.store addr off v }

end Shared

/-- One atomic step of `cyclic_queue_push`; `none` if `malloc` would return a block in use. -/
def pushStep (m : Shared) (element : Region) (ch : Choice) : PushPc → Option (Shared × Cont PushPc)
  | .lockPushLoad =>
    if m.queue.pushIdx = uint32Max then some (m, .goto .lockPushLoad)
    else some (m, .goto (.lockPushCas m.queue.pushIdx))
  | .lockPushCas pushIdx =>
    if m.queue.pushIdx = pushIdx ∧ ch.spurious = false then
      some (m.setPushIdx uint32Max, .goto (.loadSize pushIdx))
    else some (m, .goto .lockPushLoad)
  | .loadSize pushIdx => some (m, .goto (.testFull pushIdx m.queue.size))
  | .testFull pushIdx size =>
    if size = m.queue.capacity then some (m, .goto (.lockTakeLoad pushIdx))
    else some (m, .goto (.readData pushIdx uint32Max))
  | .lockTakeLoad pushIdx =>
    if m.queue.takeIdx = uint32Max then some (m, .goto (.lockTakeLoad pushIdx))
    else some (m, .goto (.lockTakeCas pushIdx m.queue.takeIdx))
  | .lockTakeCas pushIdx takeIdx =>
    if m.queue.takeIdx = takeIdx ∧ ch.spurious = false then
      some (m.setTakeIdx uint32Max, .goto (.reloadSize pushIdx takeIdx))
    else some (m, .goto (.lockTakeLoad pushIdx))
  | .reloadSize pushIdx takeIdx => some (m, .goto (.retestFull pushIdx takeIdx m.queue.size))
  | .retestFull pushIdx takeIdx size =>
    if size = m.queue.capacity then some (m, .goto (.calcCapacity pushIdx takeIdx size))
    else some (m, .goto (.readData pushIdx takeIdx))
  | .calcCapacity pushIdx takeIdx size =>
    let newCapacity := min (u32Mul m.queue.capacity 2) m.queue.maxCapacity
    if newCapacity = m.queue.capacity then some (m, .goto (unlockFrom pushIdx takeIdx false))
    else some (m, .goto (.malloc pushIdx takeIdx size newCapacity))
  | .malloc pushIdx takeIdx size newCapacity =>
    match ch.block with
    | none => some (m, .goto (unlockFrom pushIdx takeIdx false))
    | some (addr, data) =>
      if (m.heap addr).isSome then none
      else some ({ m with heap := m.heap.alloc addr (u32Mul m.queue.elementSize newCapacity) data },
        .goto (.move pushIdx takeIdx size newCapacity addr 0))
  | .move pushIdx takeIdx size newCapacity newDataPtr k =>
    if k < moveLength m.queue takeIdx size then
      some (m.storeByte newDataPtr k
          (m.heap.load m.queue.dataPtr (moveSource m.queue takeIdx size k)),
        .goto (.move pushIdx takeIdx size newCapacity newDataPtr (k + 1)))
    else some (m, .goto (.free size newCapacity newDataPtr))
  | .free size newCapacity newDataPtr =>
    some ({ m with heap := m.heap.free m.queue.dataPtr }, .goto (.setData size newCapacity newDataPtr))
  | .setData size newCapacity newDataPtr =>
    some (m.withQueue { m.queue with dataPtr := newDataPtr }, .goto (.setCapacity size newCapacity))
  | .setCapacity size newCapacity =>
    -- the locals become `take_idx = 0` and `push_idx = size`
    some (m.withQueue { m.queue with capacity := newCapacity }, .goto (.readData size 0))
  | .readData pushIdx takeIdx => some (m, .goto (.copy pushIdx takeIdx m.queue.dataPtr 0))
  | .copy pushIdx takeIdx dataPtr k =>
    if k < m.queue.elementSize then
      some (m.storeByte dataPtr (u32Mul pushIdx m.queue.elementSize + k) (element k),
        .goto (.copy pushIdx takeIdx dataPtr (k + 1)))
    else some (m, .goto (.advance pushIdx takeIdx))
  | .advance pushIdx takeIdx =>
    some (m, .goto (.fetchAdd (u32Add pushIdx 1 % m.queue.capacity) takeIdx))
  | .fetchAdd pushIdx takeIdx =>
    some (m.setSize (u32Add m.queue.size 1), .goto (unlockFrom pushIdx takeIdx true))
  | .unlockTake pushIdx takeIdx result =>
    some (m.setTakeIdx takeIdx, .goto (.unlockPush pushIdx result))
  | .unlockPush pushIdx result => some (m.setPushIdx pushIdx, .ret result)

/-- One atomic step of `cyclic_queue_take`; `dest` is what the caller's `element` points at. -/
def takeStep (m : Shared) (dest : Region) (ch : Choice) : TakePc → Shared × Region × Cont TakePc
  | .loadSize =>
    if m.queue.size = 0 then (m, dest, .ret false) else (m, dest, .goto .lockTakeLoad)
  | .lockTakeLoad =>
    if m.queue.takeIdx = uint32Max then (m, dest, .goto .lockTakeLoad)
    else (m, dest, .goto (.lockTakeCas m.queue.takeIdx))
  | .lockTakeCas takeIdx =>
    if m.queue.takeIdx = takeIdx ∧ ch.spurious = false then
      (m.setTakeIdx uint32Max, dest, .goto (.reloadSize takeIdx))
    else (m, dest, .goto .lockTakeLoad)
  | .reloadSize takeIdx =>
    if m.queue.size = 0 then (m, dest, .goto (.unlockTake takeIdx false))
    else (m, dest, .goto (.readData takeIdx))
  | .readData takeIdx => (m, dest, .goto (.copy takeIdx m.queue.dataPtr 0))
  | .copy takeIdx dataPtr k =>
    if k < m.queue.elementSize then
      (m, Function.update dest k (m.heap.load dataPtr (u32Mul takeIdx m.queue.elementSize + k)),
        .goto (.copy takeIdx dataPtr (k + 1)))
    else (m, dest, .goto (.advance takeIdx))
  | .advance takeIdx => (m, dest, .goto (.fetchSub (u32Add takeIdx 1 % m.queue.capacity)))
  | .fetchSub takeIdx =>
    (m.setSize (u32Sub m.queue.size 1), dest, .goto (.unlockTake takeIdx true))
  | .unlockTake takeIdx result => (m.setTakeIdx takeIdx, dest, .ret result)

/-! ### The system -/

/-- The call a thread is in. -/
inductive Op
  | push (element : Region) (pc : PushPc)
  | take (dest : Region) (pc : TakePc)

/-- A call at its first program point. -/
def Op.Initial : Op → Prop
  | .push _ .lockPushLoad | .take _ .loadSize => True
  | _ => False

inductive Kind
  | push
  | take
  deriving DecidableEq, Repr

/-- An element is its bytes. -/
abbrev Element := List UInt8

/-- A call that returned. -/
structure Return (τ : Type) where
  thread : τ
  kind : Kind
  result : Bool

/-- The elements of the pushes in the order of their `fetch_add`, the elements of the takes in the
order of their `fetch_sub`, and the calls that returned. -/
structure History (τ : Type) where
  pushed : List Element
  taken : List Element
  returned : List (Return τ)

structure Sys (τ : Type) where
  shared : Shared
  calls : τ → Option Op
  history : History τ

/-- What can happen next: a thread without a call starts one, or a thread in a call does a step. -/
inductive Event (τ : Type)
  | push (t : τ) (element : Region)
  | take (t : τ) (dest : Region)
  | step (t : τ) (ch : Choice)

/-- The thread that acts. -/
def Event.thread {τ : Type} : Event τ → τ
  | .push t _ => t
  | .take t _ => t
  | .step t _ => t

namespace Sys

variable {τ : Type} [DecidableEq τ]

def start (m : Shared) : Sys τ := ⟨m, fun _ => none, ⟨[], [], []⟩⟩

abbrev queue (s : Sys τ) : CyclicQueue := s.shared.queue

def invoke (s : Sys τ) (t : τ) (op : Op) : Option (Sys τ) :=
  if (s.calls t).isNone then some { s with calls := Function.update s.calls t (some op) } else none

/-- The call of `t` returned. -/
def finish (s : Sys τ) (t : τ) (kind : Kind) (m : Shared) (result : Bool) : Sys τ :=
  { shared := m
    calls := Function.update s.calls t none
    history := { s.history with returned := s.history.returned ++ [⟨t, kind, result⟩] } }

/-- The state after a step of a push that was at `pc`. -/
def afterPush (s : Sys τ) (t : τ) (element : Region) (pc : PushPc) : Shared × Cont PushPc → Sys τ
  | (m, .ret result) => s.finish t .push m result
  | (m, .goto pc') =>
    { shared := m
      calls := Function.update s.calls t (some (.push element pc'))
      history := match pc with
        | .fetchAdd _ _ =>
          { s.history with pushed := s.history.pushed ++ [bytes element s.queue.elementSize] }
        | _ => s.history }

/-- The state after a step of a take that was at `pc`. -/
def afterTake (s : Sys τ) (t : τ) (pc : TakePc) : Shared × Region × Cont TakePc → Sys τ
  | (m, _, .ret result) => s.finish t .take m result
  | (m, dest, .goto pc') =>
    { shared := m
      calls := Function.update s.calls t (some (.take dest pc'))
      history := match pc with
        | .fetchSub _ =>
          { s.history with taken := s.history.taken ++ [bytes dest s.queue.elementSize] }
        | _ => s.history }

def step (s : Sys τ) : Event τ → Option (Sys τ)
  | .push t element => s.invoke t (.push element .lockPushLoad)
  | .take t dest => s.invoke t (.take dest .loadSize)
  | .step t ch => match s.calls t with
    | none => none
    | some (.push element pc) => (pushStep s.shared element ch pc).map (s.afterPush t element pc)
    | some (.take dest pc) => some (s.afterTake t pc (takeStep s.shared dest ch pc))

/-! ### What a step can be -/

variable {s s' : Sys τ} {t : τ}

/-- A thread starts a call, or is in a push and does a step of it, or in a take. -/
theorem step_cases {e : Event τ} (hs : s.step e = some s') :
    (∃ op, op.Initial ∧ s.calls e.thread = none ∧
      s' = { s with calls := Function.update s.calls e.thread (some op) }) ∨
    (∃ t ch element pc m c, e = .step t ch ∧ s.calls t = some (.push element pc) ∧
      pushStep s.shared element ch pc = some (m, c) ∧ s' = s.afterPush t element pc (m, c)) ∨
    ∃ t ch dest pc m dest' c, e = .step t ch ∧ s.calls t = some (.take dest pc) ∧
      takeStep s.shared dest ch pc = (m, dest', c) ∧ s' = s.afterTake t pc (m, dest', c) := by
  have hinvoke : ∀ {t op}, s.invoke t op = some s' → s.calls t = none ∧
      s' = { s with calls := Function.update s.calls t (some op) } := by
    intro t op hi
    unfold invoke at hi
    split_ifs at hi with hnone
    exact ⟨Option.isNone_iff_eq_none.mp hnone, (Option.some.inj hi).symm⟩
  cases e with
  | push t element => exact Or.inl ⟨.push element .lockPushLoad, trivial, hinvoke hs⟩
  | take t dest => exact Or.inl ⟨.take dest .loadSize, trivial, hinvoke hs⟩
  | step t ch =>
    unfold step at hs
    cases hop : s.calls t with
    | none => simp [hop] at hs
    | some op =>
      cases op with
      | push element pc =>
        simp only [hop, Option.map_eq_some_iff] at hs
        obtain ⟨⟨m, c⟩, hr, rfl⟩ := hs
        exact Or.inr (Or.inl ⟨t, ch, element, pc, m, c, rfl, hop, hr, rfl⟩)
      | take dest pc =>
        simp only [hop, Option.some.injEq] at hs
        exact Or.inr (Or.inr ⟨t, ch, dest, pc, _, _, _, rfl, hop, rfl, hs.symm⟩)

section After

variable {element dest : Region} {pc : PushPc} {pc' : TakePc} {m : Shared} {kind : Kind} {r : Bool}

theorem afterPush_ret : s.afterPush t element pc (m, .ret r) = s.finish t .push m r := rfl

theorem afterTake_ret : s.afterTake t pc' (m, dest, .ret r) = s.finish t .take m r := rfl

@[simp] theorem finish_calls : (s.finish t kind m r).calls t = none := Function.update_self _ _ _

@[simp] theorem finish_returned : (s.finish t kind m r).history.returned =
    s.history.returned ++ [⟨t, kind, r⟩] := rfl

theorem afterPush_goto_calls {q : PushPc} :
    (s.afterPush t element pc (m, .goto q)).calls t = some (.push element q) :=
  Function.update_self _ _ _

theorem afterTake_goto_calls {q : TakePc} :
    (s.afterTake t pc' (m, dest, .goto q)).calls t = some (.take dest q) :=
  Function.update_self _ _ _

theorem afterPush_goto_returned {q : PushPc} :
    (s.afterPush t element pc (m, .goto q)).history.returned = s.history.returned := by
  cases pc <;> rfl

theorem afterTake_goto_returned {q : TakePc} :
    (s.afterTake t pc' (m, dest, .goto q)).history.returned = s.history.returned := by
  cases pc' <;> rfl

theorem afterPush_shared {c : Cont PushPc} : (s.afterPush t element pc (m, c)).shared = m := by
  cases c <;> rfl

theorem afterTake_shared {c : Cont TakePc} : (s.afterTake t pc' (m, dest, c)).shared = m := by
  cases c <;> rfl

end After

/-- Another thread's step does not touch the call of `t`. -/
theorem step_calls_of_ne {e : Event τ} (hs : s.step e = some s') (hne : t ≠ e.thread) :
    s'.calls t = s.calls t := by
  rcases step_cases hs with ⟨op, -, -, rfl⟩ | ⟨u, ch, element, pc, m, c, rfl, -, -, rfl⟩ |
    ⟨u, ch, dest, pc, m, dest', c, rfl, -, -, rfl⟩
  · exact Function.update_of_ne hne _ _
  · cases c <;> exact Function.update_of_ne hne _ _
  · cases c <;> exact Function.update_of_ne hne _ _

end Sys

/-! ### A queue of one-byte elements -/

def oneByteQueue : Shared :=
  ⟨⟨1, 1, 0x40, 0x40000, 0, 0, 0⟩, Heap.alloc (fun _ => none) 1 0x40 fun _ => 0⟩

theorem oneByteQueue_init :
    cyclicQueueInit (fun _ => none) 1 0 (some (1, fun _ => 0)) = .ok oneByteQueue := rfl

/-- A step without a spurious failure or an allocation. -/
def plainStep (t : Bool) : Event Bool := .step t ⟨false, none⟩

/-- One thread pushes a byte; the other one meets its lock, pushes too, and takes the first byte. -/
def pushPushTake : List (Event Bool) :=
  .push true (fun _ => 7) :: List.replicate 4 (plainStep true) ++
    .push false (fun _ => 9) :: List.replicate 3 (plainStep false) ++
    List.replicate 6 (plainStep true) ++ List.replicate 10 (plainStep false) ++
    .take true (fun _ => 0) :: List.replicate 10 (plainStep true)

end Cryptochan.Queue
