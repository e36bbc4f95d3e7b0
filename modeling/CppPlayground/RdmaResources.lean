import CppPlayground.ConnectQp
import CppPlayground.PollCompletion
import CppPlayground.ResourceLedger

/-!
# The resources of the RDMA demo

`resources_create` of rdma1.cpp acquires one resource after another and leaves
at the first failure; its error exit releases what it has and resets the
handles. `main` then goes through its calls and ends with `resources_destroy`,
which releases what the handles show. The results of the library's calls are
parameters, and a log records what is acquired and released.
-/
namespace CppPlayground.RdmaResources
open SockSync ConnectQp PollCompletion ResourceLedger
open RdmaDemo (Opcode)

/-- What `struct resources` has a handle of, and `dev_list`. -/
inductive Kind where
  | sock
  | devList
  | ibCtx
  | pd
  | cq
  | buf
  | mr
  | qp
  deriving DecidableEq

/-- The handles a resource was made from. -/
def Kind.needs : Kind → List Kind
  | .sock => []
  | .devList => []
  | .ibCtx => []
  | .pd => [.ibCtx]
  | .cq => [.ibCtx]
  | .buf => []
  | .mr => [.pd, .buf]
  | .qp => [.pd, .cq]

def Needs (k s : Kind) : Prop := s ∈ k.needs

instance (k s : Kind) : Decidable (Needs k s) := inferInstanceAs (Decidable (_ ∈ _))

/-- An address, or a descriptor. -/
abbrev Handle := ℕ

/-- An entry of the device list, with its `ibv_get_device_name`. -/
structure Device where
  name : List UInt8
  dev : Handle

structure Sockets where
  socket : ℤ
  bind : ℤ
  listen : ℤ
  accept : ℤ
  connect : ℤ

/-- What the calls that `main` and its functions make return. `sync` has the
reads of the calls of `sock_sync_data` that send one character, `poll` the
first reading of the clock and the passes of each `poll_completion`, `destroyed`
the results of the calls that `resources_destroy` makes. -/
structure Library where
  sockets : Sockets
  deviceList : Option (Handle × List Device)
  openDevice : Device → Option Handle
  queryPort : Option Handle → ℤ × UInt16
  allocPd : Option Handle → Option Handle
  createCq : Option Handle → Option Handle
  malloc : Option Handle
  regMr : Option Handle → Option Handle → Option Handle
  createQp : Option Handle → Option Handle → Option Handle
  rkey : Handle → UInt32
  qpNum : Handle → UInt32
  calls : Calls
  tmpConData : HostBytes.Memory
  conReads : List ReadResult
  sync : Char → List ReadResult
  postSend : Opcode → ℤ
  poll : ℕ → Timeval × List Pass
  destroyed : Kind → Handle → ℤ

/-- `handle` is `none` for a null pointer, and for a negative `sock`. -/
structure Resources where
  config : Config
  lid : UInt16
  handle : Kind → Option Handle
  log : List (Event Kind Handle)

/-- `resources_init` -/
def Resources.init (config : Config) : Resources := ⟨config, 0, fun _ => none, []⟩

/-- `start_server`; without a result it has called `exit`. -/
def startServer (sockets : Sockets) : Option ℤ :=
  if sockets.socket = -1 then none
  else if sockets.bind ≠ 0 then none
  else if sockets.listen = -1 then none
  else if sockets.accept = -1 then none
  else some sockets.accept

def startClient (sockets : Sockets) : Option ℤ :=
  if sockets.socket = -1 then none
  else if sockets.connect = -1 then none
  else some sockets.socket

def sockConnect (config : Config) (sockets : Sockets) : Option ℤ :=
  if config.serverName.isSome then startClient sockets else startServer sockets

/-- A result, or a nonzero `rc` at `resources_create_exit`. -/
abbrev Attempt (α : Type) := Except (ℤ × Resources) α

/-- A call that returns a resource, or null, which makes the result `rc`. -/
def Resources.acquire (res : Resources) (k : Kind) (rc : ℤ) : Option Handle → Attempt Resources
  | none => .error (rc, res)
  | some x => .ok { res with
      handle := Function.update res.handle k (some x)
      log := res.log ++ [.acquire k x] }

/-- A resource that is held is released, and its handle reset. -/
def Resources.release (res : Resources) (k : Kind) : Resources :=
  { res with
    handle := Function.update res.handle k none
    log := res.log ++ releases res.handle [k] }

/-- The loop over the device list; a missing `dev_name` becomes the name of the
first device. -/
def findDevice : List Device → Option (List UInt8) → Option (List UInt8) × Option Device
  | [], devName => (devName, none)
  | d::devs, devName =>
      let wanted := devName.getD d.name
      if d.name = wanted then (some wanted, some d) else findDevice devs (some wanted)

def Resources.chooseDevice (res : Resources) (devs : List Device) : Attempt (Resources × Device) :=
  if devs.length = 0 then .error (1, res)
  else
    let found := findDevice devs res.config.devName
    let res := { res with config := { res.config with devName := found.1 } }
    match found.2 with
    | none => .error (1, res)
    | some d => .ok (res, d)

def Resources.queryPort (res : Resources) (lib : Library) : Attempt Resources :=
  let port := lib.queryPort (res.handle .ibCtx)
  if port.1 ≠ 0 then .error (1, res) else .ok { res with lid := port.2 }

/-- `resources_create` up to its exit; `sock` is the result of `sock_connect`. -/
def Resources.create (res : Resources) (lib : Library) (sock : ℤ) : Attempt Resources := do
  let res ← res.acquire .sock (-1) (if sock < 0 then none else some sock.toNat)
  let res ← res.acquire .devList 1 (lib.deviceList.map Prod.fst)
  let (res, ibDev) ← res.chooseDevice ((lib.deviceList.map Prod.snd).getD [])
  let res ← res.acquire .ibCtx 1 (lib.openDevice ibDev)
  let res ← (res.release .devList).queryPort lib
  let res ← res.acquire .pd 1 (lib.allocPd (res.handle .ibCtx))
  let res ← res.acquire .cq 1 (lib.createCq (res.handle .ibCtx))
  let res ← res.acquire .buf 1 lib.malloc
  let res ← res.acquire .mr 1 (lib.regMr (res.handle .pd) (res.handle .buf))
  res.acquire .qp 1 (lib.createQp (res.handle .pd) (res.handle .cq))

/-- The order of the error exit of `resources_create`. -/
def cleanupOrder : List Kind := [.qp, .mr, .buf, .cq, .pd, .ibCtx, .devList, .sock]

def Resources.cleanup (res : Resources) : Resources := cleanupOrder.foldl Resources.release res

/-- `resources_create_exit` -/
def createExit : Attempt Resources → ℤ × Resources
  | .ok res => (0, res)
  | .error (rc, res) => if rc ≠ 0 then (rc, res.cleanup) else (rc, res)

def resourcesCreate (config : Config) (lib : Library) : Option (ℤ × Resources) :=
  (sockConnect config lib.sockets).map fun sock =>
    createExit ((Resources.init config).create lib sock)

/-- The order of `resources_destroy`, which does not reset the handles. -/
def destroyOrder : List Kind := [.qp, .mr, .buf, .cq, .pd, .ibCtx, .sock]

/-- `free` has no result. -/
def Resources.destroyFails (res : Resources) (lib : Library) (k : Kind) : Bool :=
  k ≠ .buf && (res.handle k).any fun x => lib.destroyed k x ≠ 0

/-- `resources_destroy`, with the log it leaves. -/
def Resources.destroy (res : Resources) (lib : Library) : ℤ × List (Event Kind Handle) :=
  (if destroyOrder.any (res.destroyFails lib) then 1 else 0,
    res.log ++ releases res.handle destroyOrder)

/-- The attributes that `connect_qp` sends. -/
def Resources.own (res : Resources) (lib : Library) : Local where
  addr := .ofNat ((res.handle .buf).getD 0)
  rkey := ((res.handle .mr).map lib.rkey).getD 0
  qpNum := ((res.handle .qp).map lib.qpNum).getD 0
  lid := res.lid

section Main
variable (host : HostBytes.Endian) (link : Link) (lib : Library) (res : Resources)

/-- The results of the calls between the creation and `main_exit`, in order. -/
def callResults : List (Option ℤ) :=
  let server := res.config.serverName.isNone
  let poll (i : ℕ) := (pollCompletion (lib.poll i).1 (lib.poll i).2).map PollCompletion.Outcome.rc
  let sync (c : Char) :=
    (sockSyncData 1 (lib.calls.write [c.toUInt8]) (fun _ => 0) (lib.sync c)).map SyncCall.rc
  [(connectQp host res.config (res.own lib) lib.calls lib.tmpConData link lib.conReads
      (lib.sync 'Q')).map ConnectQp.Outcome.rc] ++
    (if server then [some (lib.postSend .send)] else []) ++ [poll 0, sync 'R'] ++
    (if server then []
      else [some (lib.postSend .rdmaRead), poll 1, some (lib.postSend .rdmaWrite), poll 2]) ++
    [sync 'W']

/-- A call that fails ends the program with result 1. -/
def firstFailure : List (Option ℤ) → Option ℤ
  | [] => some 0
  | none::_ => none
  | some rc::calls => if rc ≠ 0 then some 1 else firstFailure calls

end Main

/-- From the test of `resources_create`'s result to `main_exit`. -/
def mainBody (host : HostBytes.Endian) (link : Link) (lib : Library) (created : ℤ × Resources) :
    Option ℤ :=
  if created.1 ≠ 0 then some 1 else firstFailure (callResults host link lib created.2)

structure Returned where
  rc : ℤ
  log : List (Event Kind Handle)

/-- From `resources_init` on; `link` is the unconnected queue pair. Without a
result some call has not returned, or has called `exit`. -/
def main (host : HostBytes.Endian) (config : Config) (link : Link) (lib : Library) :
    Option Returned := do
  let created ← resourcesCreate config lib
  let rc ← mainBody host link lib created
  let destroyed := created.2.destroy lib
  some ⟨if destroyed.1 ≠ 0 then 1 else rc, destroyed.2⟩

theorem accounted_release {res : Resources} {k : Kind} (h : Accounted Needs res.log res.handle)
    (hfree : ∀ s, Needs s k → res.handle s = none) :
    Accounted Needs (res.release k).log (res.release k).handle := by
  cases hk : res.handle k with
  | none =>
      have hlog : (res.release k).log = res.log := by simp [Resources.release, releases, hk]
      have hhandle : (res.release k).handle = res.handle := by
        simp [Resources.release, ← hk]
      rwa [hlog, hhandle]
  | some x =>
      have hlog : (res.release k).log = res.log ++ [.release k x] := by
        simp [Resources.release, releases, hk]
      rw [hlog]
      exact h.release hk hfree

/-- The log accounts for the handles; exactly the resources of `here` are held,
those of `todo` have not been acquired yet. -/
structure Ready (todo here : List Kind) (res : Resources) : Prop where
  accounted : Accounted Needs res.log res.handle
  fresh : ∀ k ∈ todo, ∀ x, .acquire k x ∉ res.log
  held : ∀ k, res.handle k ≠ none ↔ k ∈ here

/-- At the error exit `rc` is not zero, and the log accounts for the handles. -/
def Leaves {α : Type} (P : α → Prop) : Attempt α → Prop
  | .ok a => P a
  | .error (rc, res) => rc ≠ 0 ∧ Accounted Needs res.log res.handle

theorem Leaves.bind {α β : Type} {P : α → Prop} {Q : β → Prop} {attempt : Attempt α}
    {next : α → Attempt β} (h : Leaves P attempt) (hnext : ∀ a, P a → Leaves Q (next a)) :
    Leaves Q (attempt >>= next) := by
  cases attempt with
  | ok a => exact hnext a h
  | error e => exact h

section Stages
variable {todo here : List Kind} {res : Resources} {k : Kind}

theorem Ready.acquire {rc : ℤ} (h : Ready (k::todo) here res) (hk : k ∉ todo)
    (hneeds : ∀ s ∈ k.needs, s ∈ here) (hrc : rc ≠ 0) (call : Option Handle) :
    Leaves (Ready todo (k::here)) (res.acquire k rc call) := by
  cases call with
  | none => exact ⟨hrc, h.accounted⟩
  | some x =>
      refine ⟨?_, ?_, ?_⟩
      · exact h.accounted.acquire (h.fresh k (by simp)) (fun s hs => (h.held s).mpr (hneeds s hs)) x
      · intro s hs y hy
        rcases List.mem_append.mp hy with hy | hy
        · exact h.fresh s (by simp [hs]) y hy
        · cases List.mem_singleton.mp hy
          exact hk hs
      · intro s
        by_cases hs : s = k
        · simp [hs]
        · simpa [hs] using h.held s

theorem Ready.release (h : Ready todo here res) (hfree : ∀ s ∈ here, ¬ Needs s k) :
    Ready todo (here.filter (· ≠ k)) (res.release k) where
  accounted := by
    refine accounted_release h.accounted fun s hs => ?_
    by_contra hheld
    exact hfree s ((h.held s).mp hheld) hs
  fresh s hs x hx := by
    rcases List.mem_append.mp hx with hx | hx
    · exact h.fresh s hs x hx
    · simp [releases] at hx
  held s := by
    by_cases hs : s = k
    · simp [Resources.release, hs]
    · simpa [Resources.release, hs] using h.held s

theorem Ready.chooseDevice (h : Ready todo here res) (devs : List Device) :
    Leaves (fun found => Ready todo here found.1) (res.chooseDevice devs) := by
  unfold Resources.chooseDevice
  split_ifs
  · exact ⟨one_ne_zero, h.accounted⟩
  · simp only
    split
    · exact ⟨one_ne_zero, h.accounted⟩
    · exact ⟨h.accounted, h.fresh, h.held⟩

theorem Ready.queryPort (h : Ready todo here res) (lib : Library) :
    Leaves (Ready todo here) (res.queryPort lib) := by
  simp only [Resources.queryPort]
  split_ifs
  · exact ⟨one_ne_zero, h.accounted⟩
  · exact ⟨h.accounted, h.fresh, h.held⟩

end Stages

/-- Everything that is acquired, in the order of its acquisition. -/
def acquired : List Kind := [.sock, .devList, .ibCtx, .pd, .cq, .buf, .mr, .qp]

theorem ready_init (config : Config) : Ready acquired [] (.init config) where
  accounted := .nil
  fresh _ _ _ := List.not_mem_nil
  held _ := by simp [Resources.init]

/-- After its success `resources_create` holds everything but the device list. -/
theorem create_leaves (config : Config) (lib : Library) (sock : ℤ) :
    Leaves (Ready [] [.qp, .mr, .buf, .cq, .pd, .ibCtx, .sock])
      ((Resources.init config).create lib sock) := by
  unfold Resources.create
  refine ((ready_init config).acquire (by decide) (by decide) (by decide) _).bind fun _ h => ?_
  refine (h.acquire (by decide) (by decide) one_ne_zero _).bind fun _ h => ?_
  refine (h.chooseDevice _).bind fun _ h => ?_
  refine (h.acquire (by decide) (by decide) one_ne_zero _).bind fun _ h => ?_
  refine ((h.release (by decide)).queryPort lib).bind fun _ h => ?_
  refine (h.acquire (by decide) (by decide) one_ne_zero _).bind fun _ h => ?_
  refine (h.acquire (by decide) (by decide) one_ne_zero _).bind fun _ h => ?_
  refine (h.acquire (by decide) (by decide) one_ne_zero _).bind fun _ h => ?_
  refine (h.acquire (by decide) (by decide) one_ne_zero _).bind fun _ h => ?_
  exact h.acquire (by decide) (by decide) one_ne_zero _

/-- `resources_create` and `resources_destroy` release in orders that suit what
the resources need. -/
theorem orderly_of_sublist {held : Kind → Option Handle} {order : List Kind}
    (horder : order.Sublist cleanupOrder) (hall : ∀ k, held k ≠ none → k ∈ order) :
    Orderly Needs held order where
  nodup := horder.nodup (by decide)
  irrefl k _ := by cases k <;> decide
  before := List.Pairwise.sublist horder (by decide)
  dependents _ _ s _ hs := hall s hs

/-- Releasing and resetting along an orderly list. -/
theorem accounted_cleanup {res : Resources} {order : List Kind}
    (h : Accounted Needs res.log res.handle) (ho : Orderly Needs res.handle order) :
    Accounted Needs (order.foldl Resources.release res).log
        (order.foldl Resources.release res).handle ∧
      ∀ k, (order.foldl Resources.release res).handle k =
        if k ∈ order then none else res.handle k := by
  induction order generalizing res with
  | nil => exact ⟨h, by simp⟩
  | cons r order ih =>
      have hreset : (res.release r).handle r = none := Function.update_self _ _ _
      have hother : ∀ s, s ≠ r → (res.release r).handle s = res.handle s := fun s hs =>
        Function.update_of_ne hs _ _
      obtain ⟨haccounted, hhandle⟩ := ih (accounted_release h ho.free) (ho.tail hreset hother)
      refine ⟨haccounted, fun k => ?_⟩
      rw [List.foldl_cons, hhandle k]
      by_cases hk : k = r
      · simp [hk, hreset]
      · simp [hk, hother k hk]

/-- Whatever `resources_create` has done, what it leaves held is released by
`resources_destroy`. -/
theorem create_exit (config : Config) (lib : Library) (sock : ℤ) :
    Accounted Needs (createExit ((Resources.init config).create lib sock)).2.log
        (createExit ((Resources.init config).create lib sock)).2.handle ∧
      ∀ k, (createExit ((Resources.init config).create lib sock)).2.handle k ≠ none →
        k ∈ destroyOrder := by
  have hleaves := create_leaves config lib sock
  cases hcreate : (Resources.init config).create lib sock with
  | ok res =>
      rw [hcreate] at hleaves
      exact ⟨hleaves.accounted, fun k hk => (hleaves.held k).mp hk⟩
  | error e =>
      obtain ⟨rc, res⟩ := e
      rw [hcreate] at hleaves
      obtain ⟨hrc, haccounted⟩ := hleaves
      have hall : ∀ k : Kind, k ∈ cleanupOrder := fun k => by cases k <;> decide
      obtain ⟨hclean, hnone⟩ := accounted_cleanup haccounted
        (orderly_of_sublist (List.Sublist.refl _) fun k _ => hall k)
      simp only [createExit, if_pos hrc]
      refine ⟨hclean, fun k hk => absurd ?_ hk⟩
      rw [Resources.cleanup, hnone k, if_pos (hall k)]

/-- When `main` returns, every resource that was acquired has been released
exactly once, in an order that suits what the resources need. -/
theorem released_once {host : HostBytes.Endian} {config : Config} {link : Link} {lib : Library}
    {o : Returned} (h : main host config link lib = some o) : ReleasedOnce Needs o.log := by
  simp only [main, resourcesCreate, Option.bind_eq_bind, Option.bind_eq_some_iff,
    Option.map_eq_some_iff] at h
  obtain ⟨_, ⟨sock, _, rfl⟩, rc, _, ho⟩ := h
  obtain ⟨haccounted, hheld⟩ := create_exit config lib sock
  have hafter := haccounted.releases (orderly_of_sublist (by decide) hheld)
  cases ho
  refine hafter.releasedOnce fun k => ?_
  split_ifs with hk
  · rfl
  · by_contra hne
    exact hk (hheld k hne)

/-- A host with one device, on which everything can be created but nothing is
written to the socket, and on which the queue pair cannot be destroyed. -/
def demoLibrary : Library where
  sockets := ⟨3, 0, 0, 4, 0⟩
  deviceList := some (10, [⟨[109], 11⟩])
  openDevice d := some (d.dev + 1)
  queryPort _ := (0, 1)
  allocPd _ := some 13
  createCq _ := some 14
  malloc := some 4096
  regMr _ _ := some 15
  createQp _ _ := some 16
  rkey _ := 1
  qpNum _ := 17
  calls := ⟨0, .zero, fun _ => -1, 0, fun _ => 0⟩
  tmpConData _ := 0
  conReads := []
  sync _ := []
  postSend _ := 0
  poll _ := (clockAt 0 0 (by decide), [])
  destroyed k _ := if k = .qp then 1 else 0

theorem released_once_no_exchange :
    ∃ o, main .little serverConfig resetLink demoLibrary = some o ∧
      o.log.count (.acquire .qp 16) = 1 ∧ ReleasedOnce Needs o.log := by
  obtain ⟨o, ho, hqp⟩ : ∃ o, main .little serverConfig resetLink demoLibrary = some o ∧
      o.log.count (.acquire .qp 16) = 1 := ⟨_, rfl, by decide⟩
  exact ⟨o, ho, hqp, released_once ho⟩

end CppPlayground.RdmaResources
