import Mathlib.Data.BitVec
import Mathlib.Data.Nat.Digits.Defs
import Cryptochan.Queue.Counted

/-!
# Cryptochan.Queue.Clients — producers and consumers

The threads of `test_cyclic_queue.c`: a producer claims the next index of `values` with a
compare-exchange on `vindex` and pushes that value until the push succeeds, a consumer takes and adds
up until `consumed_count` says that all values were consumed.

Left out: the random sleeps, and what is printed.
-/

namespace Cryptochan.Queue

/-! ### The threads of the test -/

/-- `complex_uint64_t`. -/
abbrev ComplexUint64 := BitVec 64 × BitVec 64

/-- `sizeof(complex_uint64_t)`. -/
def sizeofComplexUint64 : ℕ := 16

/-- A `uint64_t` in memory, least significant byte first. -/
def uint64OfBytes (bs : List UInt8) : BitVec 64 :=
  BitVec.ofNat 64 (Nat.ofDigits 256 (bs.map UInt8.toNat))

/-- The number in an element: `real`, then `img`. -/
def complexOfElement (x : Element) : ComplexUint64 :=
  (uint64OfBytes (x.take 8), uint64OfBytes (x.drop 8))

/-- Where `run_producer` is: the condition of its loop, `stage`, the load and the compare-exchange of
`vindex`, the test of the index, before and in `cyclic_queue_push`, or behind the loop. -/
inductive ProducerPc
  | test | stage | load | cas | bound | push | pushing | done
  deriving DecidableEq, Repr

/-- `run_producer` with its locals. -/
structure Producer where
  pc : ProducerPc
  vidx : ℤ
  cached : Bool
  processedCount : ℕ

/-- Where `run_consumer` is; `add` and `count` follow a successful `cyclic_queue_take`. -/
inductive ConsumerPc
  | test | stage | take | taking | add | count | done
  deriving DecidableEq, Repr

/-- `run_consumer` with its locals.  `got` records what was added to `result`; no step reads it. -/
structure Consumer where
  pc : ConsumerPc
  nextVal : Region
  result : ComplexUint64
  processedCount : ℕ
  got : List Element

def Producer.start : Producer := ⟨.test, -1, false, 0⟩

def Consumer.start (nextVal : Region) : Consumer := ⟨.test, nextVal, 0, 0, []⟩

/-- The producers `π`, the consumers `κ` and what they share. -/
structure Test (π κ : Type) where
  sys : Sys (π ⊕ κ)
  stage : ℕ
  vindex : ℕ
  consumedCount : ℕ
  producers : π → Producer
  consumers : κ → Consumer

/-- `main` sets `stage`, or a thread does a step. -/
inductive TestEvent (π κ : Type)
  | go
  | producer (p : π) (ch : Choice)
  | consumer (c : κ) (ch : Choice)

/-- After a step of `cyclic_queue_push`. -/
def Producer.afterPush (q : Producer) : Option (Bool × Region) → Producer
  | none => q
  | some (true, _) =>
    { q with pc := .test, cached := false, processedCount := q.processedCount + 1 }
  | some (false, _) => { q with pc := .test }

/-- After a step of `cyclic_queue_take`. -/
def Consumer.afterTake (q : Consumer) : Option (Bool × Region) → Consumer
  | none => q
  | some (true, nextVal) => { q with pc := .add, nextVal := nextVal }
  | some (false, nextVal) => { q with pc := .test, nextVal := nextVal }

namespace Test

variable {π κ : Type} [DecidableEq π] [DecidableEq κ]

/-- Before the threads are started; `nextVal` is what is on the stack of each consumer. -/
def start (m : Shared) (nextVal : κ → Region) : Test π κ :=
  ⟨Sys.start m, 0, 0, 0, fun _ => .start, fun c => .start (nextVal c)⟩

def setProducer (s : Test π κ) (p : π) (q : Producer) : Test π κ :=
  { s with producers := Function.update s.producers p q }

def setConsumer (s : Test π κ) (c : κ) (q : Consumer) : Test π κ :=
  { s with consumers := Function.update s.consumers c q }

/-- `run_producer`; `n` is `__TEST_VALUES_COUNT`, `values i` what `&values[i]` points at. -/
def producerStep (n : ℕ) (values : ℕ → Region) (s : Test π κ) (p : π) (ch : Choice) :
    Option (Test π κ) :=
  let q := s.producers p
  match q.pc with
  | .test =>
    some (s.setProducer p { q with pc := if q.vidx < n ∨ q.cached = true then .stage else .done })
  | .stage =>
    some (s.setProducer p
      { q with pc := if s.stage < 1 then .test else if q.cached = true then .push else .load })
  | .load => some (s.setProducer p { q with pc := .cas, vidx := s.vindex })
  | .cas =>
    if (s.vindex : ℤ) = q.vidx ∧ ch.spurious = false then
      some ({ s with vindex := s.vindex + 1 }.setProducer p { q with pc := .bound })
    else some (s.setProducer p { q with pc := .load, vidx := s.vindex })
  | .bound =>
    some (s.setProducer p
      (if n ≤ q.vidx then { q with pc := .done } else { q with pc := .push, cached := true }))
  | .push =>
    (s.sys.step (.push (.inl p) (values q.vidx.toNat))).map fun sys =>
      { s with sys := sys }.setProducer p { q with pc := .pushing }
  | .pushing =>
    (s.sys.step (.step (.inl p) ch)).map fun sys =>
      { s with sys := sys }.setProducer p (q.afterPush (s.sys.returns (.inl p) ch))
  | .done => none

/-- `run_consumer`. -/
def consumerStep (n : ℕ) (s : Test π κ) (c : κ) (ch : Choice) : Option (Test π κ) :=
  let q := s.consumers c
  match q.pc with
  | .test => some (s.setConsumer c { q with pc := if s.consumedCount < n then .stage else .done })
  | .stage => some (s.setConsumer c { q with pc := if s.stage < 1 then .test else .take })
  | .take =>
    (s.sys.step (.take (.inr c) q.nextVal)).map fun sys =>
      { s with sys := sys }.setConsumer c { q with pc := .taking }
  | .taking =>
    (s.sys.step (.step (.inr c) ch)).map fun sys =>
      { s with sys := sys }.setConsumer c (q.afterTake (s.sys.returns (.inr c) ch))
  | .add =>
    let x := bytes q.nextVal sizeofComplexUint64
    some (s.setConsumer c
      { q with pc := .count, result := q.result + complexOfElement x, got := q.got ++ [x] })
  | .count =>
    some ({ s with consumedCount := s.consumedCount + 1 }.setConsumer c
      { q with pc := .test, processedCount := q.processedCount + 1 })
  | .done => none

def step (n : ℕ) (values : ℕ → Region) (s : Test π κ) : TestEvent π κ → Option (Test π κ)
  | .go => some { s with stage := 1 }
  | .producer p ch => s.producerStep n values p ch
  | .consumer c ch => s.consumerStep n c ch

end Test

end Cryptochan.Queue
