import Mathlib.Data.Finset.Lattice.Lemmas
import Cryptochan.Config.Load
import Cryptochan.Lib.Resource

/-!
# Cryptochan.Program.Dispatcher — `dispatcher.c` and `run_server`

`dispatcher_init` resolves the configured address, makes a listening socket and binds it;
`run_server` does this and tears it down again.  What the system answers is a parameter, and every
system call is logged.

Whatever the answers are, a run of `run_server` gives back what it took except the list of
`getaddrinfo`, which is never freed, and a socket with the number `0`, which
`dispatcher_destroy_context` takes for none (`runServer_holdings`).
-/

namespace Cryptochan

open Resource

def afInet : ℕ := 2
def sockStream : ℕ := 1
def aiPassive : ℕ := 1
def solSocket : ℕ := 1
def soReuseaddr : ℕ := 2

/-- `O_NONBLOCK`. -/
def oNonblock : BitVec 32 := 0x800

def exitSuccess : ℕ := 0
def exitFailure : ℕ := 1

/-- `struct sockaddr_in`: the two bytes of the port as they stand in memory, and the address. -/
structure SockaddrIn where
  sinFamily : ℕ
  sinPort : UInt8 × UInt8
  sinAddr : BitVec 32
  deriving DecidableEq

/-- `htons` of an `int`: its low sixteen bits, the high byte first. -/
def htons (port : ℤ) : UInt8 × UInt8 :=
  let p := (port % 2 ^ 16).toNat
  ((p / 256).toUInt8, (p % 256).toUInt8)

/-- What the system answers.  `getaddrinfo` gives a list (a pointer, and the address of its first
entry) or the text of an error; `malloc` is the one in `dispatcher_init`. -/
structure Net where
  getaddrinfo : Option CString → Except CString (ℕ × BitVec 32)
  malloc : Option ℕ
  socket : ℤ
  fcntlGetfl : ℤ → BitVec 32
  fcntlSetfl : ℤ → BitVec 32 → ℤ
  setsockopt : ℤ → ℤ
  bind : ℤ → SockaddrIn → ℤ

/-- A system call, with the pointer or descriptor it returned if it takes one from the system. -/
inductive SysCall
  | getaddrinfo (host : Option CString) (family socktype flags : ℕ) (res : Option ℕ)
  | malloc (ptr : Option ℕ)
  | socket (family socktype protocol : ℕ) (fd : ℤ)
  | fcntlGetfl (fd : ℤ)
  | fcntlSetfl (fd : ℤ) (flags : BitVec 32)
  | setsockopt (fd : ℤ) (level name : ℕ) (value : ℤ)
  | bind (fd : ℤ) (ptr : ℕ) (sa : SockaddrIn)
  | close (fd : ℤ)
  | free (ptr : ℕ)

/-- What a process has called, and what it has printed to `stderr` (`perror` without the reason). -/
structure Process where
  calls : List SysCall
  stderr : List CString

namespace Process

def call (p : Process) (c : SysCall) : Process := { p with calls := p.calls ++ [c] }

def complain (p : Process) (msg : CString) : Process := { p with stderr := p.stderr ++ [msg] }

@[simp] theorem calls_call (p : Process) (c : SysCall) : (p.call c).calls = p.calls ++ [c] := rfl

@[simp] theorem calls_complain (p : Process) (msg : CString) : (p.complain msg).calls = p.calls := rfl

end Process

/-- `cryptochan_dispatcher_context_t`. -/
structure DispatcherContext where
  listenSocketPtr : Option ℕ
  listenSockfd : ℤ

/-! ### The functions -/

section Dispatcher

variable (net : Net)

/-- `setnonblocking`. -/
def setnonblocking (fd : ℤ) (p : Process) : Process × Bool :=
  let p := p.call (.fcntlGetfl fd)
  let flags := net.fcntlGetfl fd
  if flags = -1 then (p, false)
  else
    let p := p.call (.fcntlSetfl fd (flags ||| oNonblock))
    if net.fcntlSetfl fd (flags ||| oNonblock) = -1 then (p, false) else (p, true)

/-- `dispatcher_destroy_context`. -/
def dispatcherDestroyContext (cntx : DispatcherContext) (p : Process) : Process × DispatcherContext :=
  let p := if cntx.listenSockfd > 0 then p.call (.close cntx.listenSockfd) else p
  let p := match cntx.listenSocketPtr with
    | some ptr => p.call (.free ptr)
    | none => p
  (p, ⟨none, 0⟩)

/-- The loop of `dispatcher_init`, which is left on its first round. -/
def configureSocket (cntx : DispatcherContext) (ptr : ℕ) (sa : SockaddrIn) (p : Process) :
    Process × DispatcherContext × Bool :=
  let fd := net.socket
  let p := p.call (.socket sa.sinFamily sockStream 0 fd)
  let cntx := { cntx with listenSockfd := fd }
  if fd = -1 then (p.complain (ascii "dispatcher: socket"), cntx, false)
  else
    let (p, ok) := setnonblocking net fd p
    if ok = false then (p.complain (ascii "dispatcher: setnonblocking"), cntx, false)
    else
      let p := p.call (.setsockopt fd solSocket soReuseaddr 1)
      if net.setsockopt fd ≠ 0 then
        (p.complain (ascii "dispatcher: setsockopt(SO_REUSEADDR)"), cntx, false)
      else
        let p := p.call (.bind fd ptr sa)
        if net.bind fd sa ≠ 0 then (p.complain (ascii "dispatcher: bind"), cntx, false)
        else (p, cntx, true)

/-- `dispatcher_init`. -/
def dispatcherInit (cntx : DispatcherContext) (bindConf : SockAddr) (p : Process) :
    Process × DispatcherContext × Bool :=
  match net.getaddrinfo bindConf.host with
  | .error reason =>
    let p := p.call (.getaddrinfo bindConf.host afInet sockStream aiPassive none)
    (p.complain (ascii "dispatcher: could not resolve bind host address `" ++ shown bindConf.host ++
      ascii "': " ++ reason ++ ascii ".\n"), cntx, false)
  | .ok (res, sinAddr) =>
    let p := p.call (.getaddrinfo bindConf.host afInet sockStream aiPassive (some res))
    let p := p.call (.malloc net.malloc)
    match net.malloc with
    | none => (p.complain (ascii "dispatcher: malloc"), cntx, false)
    | some ptr =>
      let sa : SockaddrIn := ⟨afInet, htons bindConf.port, sinAddr⟩
      let (p, cntx, result) := configureSocket net ⟨some ptr, 0⟩ ptr sa p
      if result = false then
        let (p, cntx) := dispatcherDestroyContext cntx p
        (p, cntx, result)
      else (p, cntx, result)

/-- `run_server`, which does not initialise the context: it is `cntx` before. -/
def runServer {P : Type} (cntx : DispatcherContext) (config : CryptochanConfig P) (p : Process) :
    Process × ℕ :=
  let (p, cntx, ok) := dispatcherInit net cntx config.server.listen p
  if ok = false then (p.complain (ascii "Could not init dispatcher. Exiting.\n"), exitFailure)
  else
    let (p, _) := dispatcherDestroyContext cntx p
    (p, exitSuccess)

end Dispatcher

/-- `run_client`. -/
def runClient {P : Type} (_config : CryptochanConfig P) (p : Process) : Process × ℕ :=
  (p.complain (ascii "client is not implemented yet.\n"), exitFailure)

/-! ### What a process holds -/

/-- What a process takes from the system. -/
inductive SysResource
  | addrinfo (res : ℕ)
  | block (ptr : ℕ)
  | descriptor (fd : ℤ)
  deriving DecidableEq

def SysCall.events : SysCall → List (Event SysResource)
  | .getaddrinfo _ _ _ _ (some res) => [.acquire (.addrinfo res)]
  | .getaddrinfo _ _ _ _ none => []
  | .malloc (some ptr) => [.acquire (.block ptr)]
  | .malloc none => []
  | .socket _ _ _ fd => if fd = -1 then [] else [.acquire (.descriptor fd)]
  | .fcntlGetfl fd => [.use (.descriptor fd)]
  | .fcntlSetfl fd _ => [.use (.descriptor fd)]
  | .setsockopt fd _ _ _ => [.use (.descriptor fd)]
  | .bind fd ptr _ => [.use (.descriptor fd), .use (.block ptr)]
  | .close fd => [.release (.descriptor fd)]
  | .free ptr => [.release (.block ptr)]

/-- What is held after the calls, `none` if one of them used or gave back what was not held. -/
def holdings (held : Finset SysResource) (calls : List SysCall) : Option (Finset SysResource) :=
  replay held (calls.flatMap SysCall.events)

/-- What the system hands out is not held yet; a descriptor is not negative. -/
structure Net.Law (net : Net) (held : Finset SysResource) : Prop where
  getaddrinfo : ∀ host res sinAddr, net.getaddrinfo host = .ok (res, sinAddr) →
    .addrinfo res ∉ held
  malloc : ∀ ptr, net.malloc = some ptr → .block ptr ∉ held
  socket : net.socket = -1 ∨ (0 ≤ net.socket ∧ .descriptor net.socket ∉ held)

/-- What `run_server` does not give back. -/
def Net.kept (net : Net) (host : Option CString) : Finset SysResource :=
  match net.getaddrinfo host with
  | .error _ => ∅
  | .ok (res, _) =>
    if net.malloc.isSome ∧ net.socket = 0 then {.descriptor 0, .addrinfo res} else {.addrinfo res}

/-- The socket is set up and bound to `sa`. -/
def Net.Binds (net : Net) (sa : SockaddrIn) : Prop :=
  net.socket ≠ -1 ∧ net.fcntlGetfl net.socket ≠ -1 ∧
    net.fcntlSetfl net.socket (net.fcntlGetfl net.socket ||| oNonblock) ≠ -1 ∧
    net.setsockopt net.socket = 0 ∧ net.bind net.socket sa = 0

/-- The address can be listened on. -/
def Net.Serves (net : Net) (addr : SockAddr) : Prop :=
  net.malloc.isSome ∧ ∃ res sinAddr, net.getaddrinfo addr.host = .ok (res, sinAddr) ∧
    net.Binds ⟨afInet, htons addr.port, sinAddr⟩

section Calls

variable (net : Net)

/-- The calls between `socket` and the destruction of the context use the socket and the block. -/
def Uses (fd : ℤ) (ptr : ℕ) (calls : List SysCall) : Prop :=
  ∀ e ∈ calls.flatMap SysCall.events, e = .use (.descriptor fd) ∨ e = .use (.block ptr)

theorem setnonblocking_spec (fd : ℤ) (ptr : ℕ) (p : Process) :
    ∃ es, (setnonblocking net fd p).1.calls = p.calls ++ es ∧ Uses fd ptr es ∧
      ((setnonblocking net fd p).2 = true ↔ net.fcntlGetfl fd ≠ -1 ∧
        net.fcntlSetfl fd (net.fcntlGetfl fd ||| oNonblock) ≠ -1) := by
  unfold setnonblocking
  by_cases hget : net.fcntlGetfl fd = -1
  · refine ⟨[.fcntlGetfl fd], ?_, by simp [Uses, SysCall.events], ?_⟩
    · simp only [if_pos hget, Process.calls_call]
    · simp only [if_pos hget]
      exact iff_of_false (by simp) fun h => h.1 hget
  · refine ⟨[.fcntlGetfl fd, .fcntlSetfl fd (net.fcntlGetfl fd ||| oNonblock)], ?_,
      by simp [Uses, SysCall.events], ?_⟩
    · simp only [if_neg hget]
      split_ifs <;> simp
    · simp only [if_neg hget]
      split_ifs with hset
      · exact iff_of_false (by simp) fun h => h.2 hset
      · exact iff_of_true rfl ⟨hget, hset⟩

theorem Uses.append {fd : ℤ} {ptr : ℕ} {es fs : List SysCall} (he : Uses fd ptr es)
    (hf : Uses fd ptr fs) : Uses fd ptr (es ++ fs) := by
  intro e h
  rw [List.flatMap_append] at h
  rcases List.mem_append.mp h with h | h
  · exact he e h
  · exact hf e h

theorem configureSocket_spec (cntx : DispatcherContext) (ptr : ℕ) (sa : SockaddrIn) (p : Process) :
    ∃ es, (configureSocket net cntx ptr sa p).1.calls =
        p.calls ++ .socket sa.sinFamily sockStream 0 net.socket :: es ∧
      Uses net.socket ptr es ∧ (net.socket = -1 → es = []) ∧
      (configureSocket net cntx ptr sa p).2.1 = { cntx with listenSockfd := net.socket } ∧
      ((configureSocket net cntx ptr sa p).2.2 = true ↔ net.Binds sa) := by
  unfold configureSocket Net.Binds
  by_cases hfd : net.socket = -1
  · simp only [if_pos hfd]
    exact ⟨[], by simp, by simp [Uses], fun _ => rfl, by simp,
      iff_of_false (by simp) fun h => h.1 hfd⟩
  simp only [if_neg hfd]
  obtain ⟨es, hcalls, huses, hok⟩ := setnonblocking_spec net net.socket ptr
    (p.call (.socket sa.sinFamily sockStream 0 net.socket))
  generalize setnonblocking net net.socket (p.call (.socket sa.sinFamily sockStream 0 net.socket)) = r
    at hcalls hok ⊢
  by_cases hnb : r.2 = false
  · simp only [if_pos hnb]
    refine ⟨es, by simp [hcalls], huses, fun h => absurd h hfd, by simp, iff_of_false (by simp) ?_⟩
    rintro ⟨-, hget, hset, -⟩
    exact absurd (hok.mpr ⟨hget, hset⟩) (by simp [hnb])
  simp only [if_neg hnb]
  by_cases hopt : net.setsockopt net.socket ≠ 0
  · simp only [if_pos hopt]
    exact ⟨es ++ [.setsockopt net.socket solSocket soReuseaddr 1], by simp [hcalls],
      huses.append (by simp [Uses, SysCall.events]), fun h => absurd h hfd, by simp,
      iff_of_false (by simp) fun h => hopt h.2.2.2.1⟩
  simp only [if_neg hopt]
  refine ⟨es ++ [.setsockopt net.socket solSocket soReuseaddr 1, .bind net.socket ptr sa], ?_,
    huses.append (by simp [Uses, SysCall.events]), fun h => absurd h hfd, ?_, ?_⟩
  · split_ifs <;> simp [hcalls]
  · split_ifs <;> rfl
  · obtain ⟨hget, hset⟩ := hok.mp (by simpa using hnb)
    split_ifs with hbind
    · exact iff_of_false (by simp) fun h => hbind h.2.2.2.2
    · exact iff_of_true rfl ⟨hfd, hget, hset, not_not.mp hopt, not_not.mp hbind⟩

theorem dispatcherDestroyContext_calls (cntx : DispatcherContext) (p : Process) :
    (dispatcherDestroyContext cntx p).1.calls = p.calls ++
      ((if cntx.listenSockfd > 0 then [.close cntx.listenSockfd] else []) ++
        cntx.listenSocketPtr.toList.map .free) := by
  unfold dispatcherDestroyContext
  cases cntx.listenSocketPtr <;> split_ifs <;> simp

variable {P : Type} (cntx : DispatcherContext) (config : CryptochanConfig P) (p : Process)

/-- Once there is memory, `run_server` sets the socket up, closes it and frees the memory, whether the
set-up succeeds or not. -/
theorem runServer_calls {res ptr : ℕ} {sinAddr : BitVec 32}
    (hres : net.getaddrinfo config.server.listen.host = .ok (res, sinAddr))
    (hptr : net.malloc = some ptr) :
    ∃ es, (runServer net cntx config p).1.calls = p.calls ++
        (.getaddrinfo config.server.listen.host afInet sockStream aiPassive (some res) ::
          .malloc (some ptr) :: ((.socket afInet sockStream 0 net.socket :: es ++
            if net.socket > 0 then [.close net.socket] else []) ++ [.free ptr])) ∧
      Uses net.socket ptr es ∧ (net.socket = -1 → es = []) ∧
      ((runServer net cntx config p).2 = exitSuccess ↔
        net.Binds ⟨afInet, htons config.server.listen.port, sinAddr⟩) := by
  unfold runServer dispatcherInit
  simp only [hres, hptr]
  obtain ⟨es, hcalls, huses, hfd, hcntx, hok⟩ := configureSocket_spec net ⟨some ptr, 0⟩ ptr
    ⟨afInet, htons config.server.listen.port, sinAddr⟩
    ((p.call (.getaddrinfo config.server.listen.host afInet sockStream aiPassive (some res))).call
      (.malloc (some ptr)))
  generalize configureSocket net ⟨some ptr, 0⟩ ptr
    ⟨afInet, htons config.server.listen.port, sinAddr⟩
    ((p.call (.getaddrinfo config.server.listen.host afInet sockStream aiPassive (some res))).call
      (.malloc (some ptr))) = r at hcalls hcntx hok ⊢
  refine ⟨es, ?_, huses, hfd, ?_⟩
  · cases hr : r.2.2 with
    | false => simp [dispatcherDestroyContext_calls, hcalls, hcntx]
    | true => simp [dispatcherDestroyContext_calls, hcalls, hcntx]
  · rw [← hok]
    cases hr : r.2.2 with
    | false => simp [exitSuccess, exitFailure]
    | true => simp

/-- The events of the socket and what is used of it. -/
theorem replay_socket {held : Finset SysResource} {ptr : ℕ} {es : List SysCall}
    (hblock : .block ptr ∈ held)
    (hfd : net.socket = -1 ∨ (0 ≤ net.socket ∧ .descriptor net.socket ∉ held))
    (huses : Uses net.socket ptr es) (hnone : net.socket = -1 → es = []) :
    holdings held (.socket afInet sockStream 0 net.socket :: es ++
      if net.socket > 0 then [.close net.socket] else []) =
        some (if net.socket = 0 then insert (.descriptor 0) held else held) := by
  rcases hfd with hfd | ⟨hnonneg, hfresh⟩
  · simp [holdings, hfd, hnone hfd, SysCall.events]
  · have hne : net.socket ≠ -1 := by omega
    have hes : replay (insert (.descriptor net.socket) held) (es.flatMap SysCall.events) =
        some (insert (.descriptor net.socket) held) := by
      apply replay_uses
      intro e he
      rcases huses e he with rfl | rfl
      · exact ⟨_, Finset.mem_insert_self _ _, rfl⟩
      · exact ⟨_, Finset.mem_insert_of_mem hblock, rfl⟩
    by_cases h0 : net.socket = 0
    · have hpos : ¬ net.socket > 0 := by omega
      rw [holdings, if_neg hpos, if_pos h0, List.append_nil, List.flatMap_cons, SysCall.events,
        if_neg hne, List.singleton_append, replay_acquire hfresh, hes, h0]
    · have hpos : net.socket > 0 := by omega
      rw [holdings, if_pos hpos, if_neg h0, List.cons_append, List.flatMap_cons, List.flatMap_append,
        SysCall.events, if_neg hne, List.singleton_append]
      exact replay_bracket hfresh hfresh hes

/-- The memory is taken first and given back last. -/
theorem holdings_memory {held : Finset SysResource} {ptr : ℕ} {es : List SysCall}
    (hblock : .block ptr ∉ held)
    (hfd : net.socket = -1 ∨ (0 ≤ net.socket ∧ .descriptor net.socket ∉ held))
    (huses : Uses net.socket ptr es) (hnone : net.socket = -1 → es = []) :
    holdings held (.malloc (some ptr) :: ((.socket afInet sockStream 0 net.socket :: es ++
      if net.socket > 0 then [.close net.socket] else []) ++ [.free ptr])) =
        some (if net.socket = 0 then insert (.descriptor 0) held else held) := by
  have hsocket := replay_socket net (Finset.mem_insert_self (.block ptr) held) (by simpa using hfd)
    huses hnone
  rw [holdings, List.flatMap_cons, SysCall.events, List.singleton_append, List.flatMap_append]
  refine replay_bracket hblock ?_ (hsocket.trans (congrArg some ?_))
  · split_ifs
    · simpa using hblock
    · exact hblock
  · split_ifs
    · exact Finset.insert_comm _ _ _
    · rfl

theorem runServer_exit : (runServer net cntx config p).2 = exitSuccess ↔
    net.Serves config.server.listen := by
  cases hres : net.getaddrinfo config.server.listen.host with
  | error reason => simp [runServer, dispatcherInit, hres, Net.Serves, exitSuccess, exitFailure]
  | ok r =>
    obtain ⟨res, sinAddr⟩ := r
    cases hptr : net.malloc with
    | none => simp [runServer, dispatcherInit, hres, hptr, Net.Serves, exitSuccess, exitFailure]
    | some ptr =>
      obtain ⟨-, -, -, -, hexit⟩ := runServer_calls net cntx config p hres hptr
      rw [hexit, Net.Serves, hptr]
      constructor
      · intro h
        exact ⟨rfl, res, sinAddr, hres, h⟩
      · rintro ⟨-, res', sinAddr', hres', h⟩
        obtain ⟨rfl, rfl⟩ := Prod.mk.inj (Except.ok.inj (hres.symm.trans hres'))
        exact h

theorem runServer_appends {held : Finset SysResource} (law : net.Law held) :
    ∃ cs, (runServer net cntx config p).1.calls = p.calls ++ cs ∧
      holdings held cs = some (held ∪ net.kept config.server.listen.host) := by
  cases hres : net.getaddrinfo config.server.listen.host with
  | error reason =>
    refine ⟨[.getaddrinfo config.server.listen.host afInet sockStream aiPassive none], ?_, ?_⟩
    · simp [runServer, dispatcherInit, hres]
    · simp [holdings, SysCall.events, Net.kept, hres]
  | ok r =>
    obtain ⟨res, sinAddr⟩ := r
    have haddr : .addrinfo res ∉ held := law.getaddrinfo _ _ _ hres
    cases hptr : net.malloc with
    | none =>
      refine ⟨[.getaddrinfo config.server.listen.host afInet sockStream aiPassive (some res),
        .malloc none], ?_, ?_⟩
      · simp [runServer, dispatcherInit, hres, hptr]
      · have hkept : net.kept config.server.listen.host = {.addrinfo res} := by
          simp [Net.kept, hres, hptr]
        rw [hkept, Finset.union_comm]
        exact replay_acquire haddr _
    | some ptr =>
      obtain ⟨es, hcalls, huses, hnone, -⟩ := runServer_calls net cntx config p hres hptr
      refine ⟨_, hcalls, ?_⟩
      have hblock : .block ptr ∉ insert (.addrinfo res) held := by
        simpa using law.malloc ptr hptr
      have hmemory := holdings_memory net hblock (by simpa using law.socket) huses hnone
      rw [holdings, List.flatMap_cons, SysCall.events, List.singleton_append, replay_acquire haddr]
      refine hmemory.trans (congrArg some ?_)
      rw [Finset.union_comm]
      simp only [Net.kept, hres, hptr, Option.isSome_some, true_and]
      split_ifs
      · rw [Finset.insert_union]
        rfl
      · rfl

/-- **What a run of `run_server` holds.**  Whatever the process has called before and whatever the
system answers, nothing is used or given back that is not held.  The list of `getaddrinfo` is kept, and
a socket with the number `0`; the rest is given back.  The run succeeds exactly if the configured
address could be bound. -/
theorem runServer_holdings (held held' : Finset SysResource) (hp : holdings held p.calls = some held')
    (law : net.Law held') :
    holdings held (runServer net cntx config p).1.calls =
        some (held' ∪ net.kept config.server.listen.host) ∧
      ((runServer net cntx config p).2 = exitSuccess ↔ net.Serves config.server.listen) := by
  refine ⟨?_, runServer_exit net cntx config p⟩
  obtain ⟨cs, hcalls, hcs⟩ := runServer_appends net cntx config p law
  rw [hcalls, holdings, List.flatMap_append, replay_append]
  show (holdings held p.calls).bind _ = _
  rw [hp]
  exact hcs

end Calls

/-- A system without a standard input, where all goes well. -/
def freshNet : Net where
  getaddrinfo _ := .ok (0, 0)
  malloc := some 0
  socket := 0
  fcntlGetfl _ := 0x2
  fcntlSetfl _ _ := 0
  setsockopt _ := 0
  bind _ _ := 0

theorem freshNet_law : freshNet.Law {.descriptor 1, .descriptor 2} where
  getaddrinfo _ _ _ _ := by simp
  malloc _ _ := by simp
  socket := Or.inr ⟨le_refl 0, by decide⟩

theorem runServer_holdings_fresh :
    holdings {.descriptor 1, .descriptor 2}
        (runServer freshNet ⟨none, 0⟩ (.zero Unit) ⟨[], []⟩).1.calls =
      some ({.descriptor 1, .descriptor 2} ∪ {.descriptor 0, .addrinfo 0}) :=
  (runServer_holdings freshNet ⟨none, 0⟩ (.zero Unit) ⟨[], []⟩ _ _ rfl freshNet_law).1

end Cryptochan
