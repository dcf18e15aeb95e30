import Mathlib.Tactic
import Tlpi.Lib.CString
import Tlpi.Lib.Machine

/-! The file service of `svmsg/svmsg_file_server.c` and `svmsg/svmsg_file_client.c`: any number of
clients, the server and the children that it forks, over System V message queues. Requests and
responses carry the client they belong to in a field `client`, which no step looks at. -/

namespace Tlpi.Svmsg
open Lib

def RESP_MSG_SIZE : ℕ := 8192

/-- `RESP_MT_FAILURE`, `RESP_MT_DATA`, `RESP_MT_END` -/
inductive Mtype
  | failure | data | fin
  deriving DecidableEq

structure RequestMsg where
  clientId : ℕ
  pathname : List Char
  client : ℕ

structure ResponseMsg where
  mtype : Mtype
  data : List UInt8
  client : ℕ
  deriving DecidableEq

-- where a process serving a request stands in `serveRequest()`
inductive ChildPc
  | opening
  | reading (rest : List UInt8)
  | sending (block rest : List UInt8)
  | sendEnd
  | sendFailure
  | exited

structure Child where
  req : RequestMsg
  pc : ChildPc

inductive Report
  | failure (text : List UInt8)
  | received (totBytes : BitVec 64) (numMsgs : BitVec 32)
  deriving DecidableEq

inductive ClientPc
  | start
  | usageErr
  | ready
  | first
  | loop (mtype : Mtype) (totBytes : BitVec 64) (numMsgs : BitVec 32)
  | printed (r : Report)
  | finished (r : Report)
  deriving DecidableEq

/-- `queue` has the existing client queues by identifier; `received` and `opened` record the
messages a client has received and the result of the `open()` for it. -/
structure State where
  serverQ : List RequestMsg
  parent : Option RequestMsg
  children : List Child
  used : List ℕ
  queue : ℕ → Option (List ResponseMsg)
  qid : ℕ → Option ℕ
  client : ℕ → ClientPc
  received : ℕ → List ResponseMsg
  opened : ℕ → Option Bool

/-- The pathname that each client is given, and the content of the files. -/
structure Service where
  pathname : ℕ → List Char
  content : List Char → List UInt8

def couldntOpen : List UInt8 := "Couldn't open".toList.map fun c => UInt8.ofNat c.toNat

-- what `printf("%s")` prints of a buffer
def cstr (buf : List UInt8) : List UInt8 := buf.takeWhile (· ≠ 0)

def dataMsg (c : ℕ) (block : List UInt8) : ResponseMsg := ⟨.data, block, c⟩
def finMsg (c : ℕ) : ResponseMsg := ⟨.fin, [], c⟩
def failureMsg (c : ℕ) : ResponseMsg := ⟨.failure, couldntOpen ++ [0], c⟩

def setChild (s : State) (i : ℕ) (ch : Child) (pc : ChildPc) : State :=
  { s with children := s.children.set i { ch with pc := pc } }

def push (s : State) (id : ℕ) (m : ResponseMsg) : State :=
  { s with queue := Function.update s.queue id ((s.queue id).map (· ++ [m])) }

def setClient (s : State) (c : ℕ) (pc : ClientPc) : State :=
  { s with client := Function.update s.client c pc }

/-! ## Steps of a child -/

def childOpen (svc : Service) (s : State) (i : ℕ) (ch : Child) (ok : Bool) : Option State :=
  match ch.pc with
  | .opening =>
    some { setChild s i ch
        (if ok then .reading (svc.content ch.req.pathname) else .sendFailure) with
      opened := Function.update s.opened ch.req.client (some ok) }
  | _ => none

/-- `read()` returns between one byte and the rest of the file, or 0 at its end. -/
def childRead (s : State) (i : ℕ) (ch : Child) (n : ℕ) : Option State :=
  match ch.pc with
  | .reading rest =>
    if rest = [] then some (setChild s i ch .sendEnd)
    else if 1 ≤ n ∧ n ≤ RESP_MSG_SIZE ∧ n ≤ rest.length then
      some (setChild s i ch (.sending (rest.take n) (rest.drop n)))
    else none
  | _ => none

/-- `msgsnd()`, which fails only when the queue has been removed. -/
def childSend (s : State) (i : ℕ) (ch : Child) : Option State :=
  let id := ch.req.clientId
  match ch.pc with
  | .sending block rest =>
    if (s.queue id).isSome then
      some (push (setChild s i ch (.reading rest)) id (dataMsg ch.req.client block))
    else some (setChild s i ch .sendEnd)
  | .sendEnd => some (push (setChild s i ch .exited) id (finMsg ch.req.client))
  | .sendFailure => some (push (setChild s i ch .exited) id (failureMsg ch.req.client))
  | _ => none

/-! ## Steps of a client -/

def clientStart (svc : Service) (s : State) (c id : ℕ) : Option State :=
  match s.client c with
  | .start =>
    if (svc.pathname c).length > PATH_MAX - 1 then some (setClient s c .usageErr)
    else if id ∈ s.used then none
    else some { setClient s c .ready with
      used := id :: s.used
      queue := Function.update s.queue id (some [])
      qid := Function.update s.qid c (some id) }
  | _ => none

def clientRequest (svc : Service) (s : State) (c : ℕ) : Option State :=
  match s.client c, s.qid c with
  | .ready, some id =>
    some { setClient s c .first with
      serverQ := s.serverQ ++ [⟨id, strncpy (PATH_MAX - 1) (svc.pathname c), c⟩] }
  | _, _ => none

def afterFirst (resp : ResponseMsg) : ClientPc :=
  if resp.mtype = .failure then .printed (.failure (cstr resp.data))
  else .loop resp.mtype (BitVec.ofNat 64 resp.data.length) 1

-- what the client does with a message, if it is at a `msgrcv()`
def onReceive (resp : ResponseMsg) : ClientPc → Option ClientPc
  | .first => some (afterFirst resp)
  | .loop .data totBytes numMsgs =>
    some (.loop resp.mtype (totBytes + BitVec.ofNat 64 resp.data.length) (numMsgs + 1))
  | _ => none

def clientReceive (s : State) (c : ℕ) : Option State := do
  let id ← s.qid c
  match s.queue id with
  | some (resp :: q) =>
    let pc ← onReceive resp (s.client c)
    some { setClient s c pc with
      queue := Function.update s.queue id (some q)
      received := Function.update s.received c (s.received c ++ [resp]) }
  | _ => none

def clientReport (s : State) (c : ℕ) : Option State :=
  match s.client c with
  | .loop mtype totBytes numMsgs =>
    if mtype = .data then none else some (setClient s c (.printed (.received totBytes numMsgs)))
  | _ => none

/-- The exit handler `removeQueue()`. -/
def removeQueue (s : State) (c : ℕ) : Option State :=
  match s.client c, s.qid c with
  | .printed r, some id =>
    some { setClient s c (.finished r) with queue := Function.update s.queue id none }
  | _, _ => none

/-! ## The service -/

inductive Act
  | clientStart (c id : ℕ)
  | clientRequest (c : ℕ)
  | clientReceive (c : ℕ)
  | clientReport (c : ℕ)
  | removeQueue (c : ℕ)
  | parentEintr
  | parentReceive
  | parentFork
  | childOpen (i : ℕ) (ok : Bool)
  | childRead (i n : ℕ)
  | childSend (i : ℕ)

def parentReceive (s : State) : Option State :=
  match s.parent, s.serverQ with
  | none, req :: q => some { s with parent := some req, serverQ := q }
  | _, _ => none

def parentFork (s : State) : Option State :=
  match s.parent with
  | some req => some { s with parent := none, children := s.children ++ [⟨req, .opening⟩] }
  | none => none

def step (svc : Service) (s : State) : Act → Option State
  | .clientStart c id => clientStart svc s c id
  | .clientRequest c => clientRequest svc s c
  | .clientReceive c => clientReceive s c
  | .clientReport c => clientReport s c
  | .removeQueue c => removeQueue s c
  | .parentEintr => if s.parent.isNone then some s else none
  | .parentReceive => parentReceive s
  | .parentFork => parentFork s
  | .childOpen i ok => s.children[i]?.bind fun ch => childOpen svc s i ch ok
  | .childRead i n => s.children[i]?.bind fun ch => childRead s i ch n
  | .childSend i => s.children[i]?.bind fun ch => childSend s i ch

def initial : State where
  serverQ := []
  parent := none
  children := []
  used := []
  queue := fun _ => none
  qid := fun _ => none
  client := fun _ => .start
  received := fun _ => []
  opened := fun _ => none

def machine (svc : Service) : Machine State Act where
  init s := s = initial
  step := step svc

/-! ## Invariant -/

/-- A file in blocks as `read()` returns them. -/
def Blocks (bs : List (List UInt8)) : Prop := ∀ b ∈ bs, b ≠ [] ∧ b.length ≤ RESP_MSG_SIZE

/-- All messages that have been sent to a client so far. -/
def sent (s : State) (c : ℕ) : List ResponseMsg :=
  s.received c ++ ((s.qid c).bind s.queue).getD []

/-- What has been sent to client `c` when the child that serves it is at `pc`. -/
def StreamOk (content : List UInt8) (c : ℕ) (opened : Option Bool) (l : List ResponseMsg) :
    ChildPc → Prop
  | .opening => l = []
  | .reading rest => ∃ bs, Blocks bs ∧ l = bs.map (dataMsg c) ∧ bs.flatten ++ rest = content
  | .sending b rest => ∃ bs, Blocks bs ∧ (b ≠ [] ∧ b.length ≤ RESP_MSG_SIZE) ∧
      l = bs.map (dataMsg c) ∧ bs.flatten ++ (b ++ rest) = content
  | .sendEnd => ∃ bs, Blocks bs ∧ l = bs.map (dataMsg c) ∧ bs.flatten = content
  | .sendFailure => l = [] ∧ opened = some false
  | .exited => (∃ bs, Blocks bs ∧ l = bs.map (dataMsg c) ++ [finMsg c] ∧ bs.flatten = content) ∨
      (l = [failureMsg c] ∧ opened = some false)

def bytes (l : List ResponseMsg) : ℕ := (l.map fun m => m.data.length).sum

def Counted (l : List ResponseMsg) (totBytes : BitVec 64) (numMsgs : BitVec 32) : Prop :=
  totBytes = BitVec.ofNat 64 (bytes l) ∧ numMsgs = BitVec.ofNat 32 l.length

def Accepted (l : List ResponseMsg) : Prop := l.head?.map ResponseMsg.mtype ≠ some .failure

def ReportOk (l : List ResponseMsg) : Report → Prop
  | .failure text => ∃ m, l = [m] ∧ m.mtype = .failure ∧ text = cstr m.data
  | .received totBytes numMsgs =>
    (∃ p m, l = p ++ [m] ∧ m.mtype ≠ .data) ∧ Accepted l ∧ Counted l totBytes numMsgs

/-- What a client at `pc` has received. -/
def ClientOk (l : List ResponseMsg) : ClientPc → Prop
  | .loop mtype totBytes numMsgs =>
    (∃ p m, l = p ++ [m] ∧ m.mtype = mtype) ∧ Accepted l ∧ Counted l totBytes numMsgs
  | .printed r | .finished r => ReportOk l r
  | _ => l = []

def ClientPc.live : ClientPc → Bool
  | .ready | .first | .loop .. | .printed _ => true
  | _ => false

def ClientPc.asked : ClientPc → Bool
  | .first | .loop .. | .printed _ | .finished _ => true
  | _ => false

def requests (s : State) : List RequestMsg :=
  s.children.map Child.req ++ s.parent.toList ++ s.serverQ

structure Inv (svc : Service) (s : State) : Prop where
  used : ∀ c id, s.qid c = some id → id ∈ s.used
  fits : ∀ c id, s.qid c = some id → (svc.pathname c).length ≤ PATH_MAX - 1
  inj : ∀ c c' id, s.qid c = some id → s.qid c' = some id → c = c'
  live : ∀ c, ((s.qid c).bind s.queue).isSome = (s.client c).live
  nodup : ((requests s).map RequestMsg.client).Nodup
  mem : ∀ r ∈ requests s, s.qid r.client = some r.clientId ∧ r.pathname = svc.pathname r.client
  asked : ∀ c, c ∈ (requests s).map RequestMsg.client ↔ (s.client c).asked
  child : ∀ ch ∈ s.children, StreamOk (svc.content ch.req.pathname) ch.req.client
    (s.opened ch.req.client) (sent s ch.req.client) ch.pc
  quiet : ∀ c, c ∉ s.children.map (fun ch => ch.req.client) → sent s c = []
  client : ∀ c, ClientOk (s.received c) (s.client c)

variable {svc : Service}

theorem inv_initial : Inv svc initial := by
  constructor <;> simp [initial, requests, sent, ClientOk, ClientPc.live, ClientPc.asked]

theorem bind_update_of_ne {β : Type*} {o : Option ℕ} {f : ℕ → Option β} {id : ℕ} {x : Option β}
    (h : o ≠ some id) : o.bind (Function.update f id x) = o.bind f := by
  cases o with
  | none => rfl
  | some j => exact Function.update_of_ne (fun hj => h (congrArg some hj)) _ _

/-! ## Steps of the server -/

theorem inv_parentReceive {s s' : State} (h : Inv svc s) (hs : parentReceive s = some s') :
    Inv svc s' := by
  unfold parentReceive at hs
  split at hs
  · next req q hp hq =>
    obtain rfl := Option.some.inj hs
    have hreq : requests { s with parent := some req, serverQ := q } = requests s := by
      simp [requests, hp, hq]
    exact { h with
      nodup := by rw [hreq]; exact h.nodup
      mem := by rw [hreq]; exact h.mem
      asked := by rw [hreq]; exact h.asked }
  · cases hs

theorem parent_not_served {s : State} (h : Inv svc s) {req : RequestMsg}
    (hp : s.parent = some req) :
    req.client ∉ s.children.map fun ch => ch.req.client := by
  have hn := h.nodup
  simp only [requests, hp, Option.toList_some, List.append_assoc, List.map_append, List.map_map,
    List.singleton_append, List.map_cons] at hn
  intro hm
  exact (List.disjoint_of_nodup_append hn) hm List.mem_cons_self

theorem inv_parentFork {s s' : State} (h : Inv svc s) (hs : parentFork s = some s') :
    Inv svc s' := by
  unfold parentFork at hs
  split at hs
  · next req hp =>
    obtain rfl := Option.some.inj hs
    have hreq : requests { s with parent := none, children := s.children ++ [⟨req, .opening⟩] } =
        requests s := by
      simp [requests, hp]
    refine { h with
      nodup := by rw [hreq]; exact h.nodup
      mem := by rw [hreq]; exact h.mem
      asked := by rw [hreq]; exact h.asked
      child := ?_
      quiet := ?_ }
    · intro ch hch
      rcases List.mem_append.mp hch with hch | hch
      · exact h.child ch hch
      · obtain rfl := List.mem_singleton.mp hch
        exact h.quiet _ (parent_not_served h hp)
    · intro c hc
      refine h.quiet c fun hm => hc ?_
      rw [List.map_append]
      exact List.mem_append_left _ hm
  · cases hs

/-! ## Steps of the children -/

theorem map_req_set {l : List Child} {i : ℕ} {ch : Child} (hch : l[i]? = some ch) (pc : ChildPc) :
    (l.set i { ch with pc := pc }).map Child.req = l.map Child.req := by
  obtain ⟨hi, rfl⟩ := List.getElem?_eq_some_iff.mp hch
  rw [List.map_set, ← List.getElem_map Child.req (h := by simpa using hi), List.set_getElem_self]

theorem requests_setChild {s : State} {i : ℕ} {ch : Child} (hch : s.children[i]? = some ch)
    (pc : ChildPc) : requests (setChild s i ch pc) = requests s := by
  simp only [requests, setChild, map_req_set hch pc]

/-- The other children serve other clients. -/
theorem mem_setChild {s : State} (h : Inv svc s) {i : ℕ} {ch : Child}
    (hch : s.children[i]? = some ch) {pc : ChildPc} {ch' : Child}
    (hm : ch' ∈ (setChild s i ch pc).children) :
    ch' = { ch with pc := pc } ∨ ch' ∈ s.children ∧ ch'.req.client ≠ ch.req.client := by
  obtain ⟨j, hj⟩ := List.mem_iff_getElem?.mp hm
  change (s.children.set i { ch with pc := pc })[j]? = some ch' at hj
  rw [List.getElem?_set] at hj
  split_ifs at hj with hij hlt
  · exact .inl (Option.some.inj hj).symm
  · refine .inr ⟨List.mem_of_getElem? hj, fun he => hij ?_⟩
    have hn : (s.children.map fun ch => ch.req.client).Nodup := by
      have hn := h.nodup
      rw [requests, List.append_assoc, List.map_append, List.map_map] at hn
      exact hn.of_append_left
    have hi : i < (s.children.map fun ch => ch.req.client).length := by
      simpa using (List.getElem?_eq_some_iff.mp hch).1
    refine (List.getElem?_inj hi hn).mp ?_
    rw [List.getElem?_map, List.getElem?_map, hch, hj, Option.map_some, Option.map_some, he]

/-- A child moves to `pc`, with a message to its client or a result of its `open()`. -/
theorem inv_child {s : State} (h : Inv svc s) {i : ℕ} {ch : Child} (hch : s.children[i]? = some ch)
    {pc : ChildPc} {queue : ℕ → Option (List ResponseMsg)} {opened : ℕ → Option Bool}
    (hlive : ∀ id, (queue id).isSome = (s.queue id).isSome)
    (hsent : ∀ c, c ≠ ch.req.client → ((s.qid c).bind queue) = ((s.qid c).bind s.queue))
    (hopened : ∀ c, c ≠ ch.req.client → opened c = s.opened c)
    (hpc : StreamOk (svc.content ch.req.pathname) ch.req.client (opened ch.req.client)
      (s.received ch.req.client ++ ((s.qid ch.req.client).bind queue).getD []) pc) :
    Inv svc { setChild s i ch pc with queue := queue, opened := opened } where
  used := h.used
  fits := h.fits
  inj := h.inj
  live c := by
    refine Eq.trans ?_ (h.live c)
    change ((s.qid c).bind queue).isSome = _
    cases s.qid c with
    | none => rfl
    | some id => exact hlive id
  nodup := by
    change ((requests (setChild s i ch pc)).map _).Nodup
    rw [requests_setChild hch]
    exact h.nodup
  mem := by
    change ∀ r ∈ requests (setChild s i ch pc), _
    rw [requests_setChild hch]
    exact h.mem
  asked := by
    change ∀ c, c ∈ (requests (setChild s i ch pc)).map _ ↔ _
    rw [requests_setChild hch]
    exact h.asked
  child ch' hch' := by
    rcases mem_setChild h hch hch' with rfl | ⟨hm, hne⟩
    · exact hpc
    · have hold := h.child ch' hm
      rw [← hopened _ hne] at hold
      simpa only [sent, setChild, hsent _ hne] using hold
  quiet c hc := by
    have hmap : (s.children.set i { ch with pc := pc }).map (fun ch => ch.req.client) =
        s.children.map fun ch => ch.req.client := by
      simpa only [List.map_map, Function.comp_def] using
        congrArg (List.map RequestMsg.client) (map_req_set hch pc)
    change c ∉ (s.children.set i { ch with pc := pc }).map (fun ch => ch.req.client) at hc
    rw [hmap] at hc
    have hne : c ≠ ch.req.client := by
      rintro rfl
      exact hc (List.mem_map_of_mem (List.mem_of_getElem? hch))
    simpa only [sent, setChild, hsent _ hne] using h.quiet c hc
  client := h.client

/-- A child moves to `pc` without a message. -/
theorem inv_setChild {s : State} (h : Inv svc s) {i : ℕ} {ch : Child}
    (hch : s.children[i]? = some ch) {pc : ChildPc}
    (hpc : StreamOk (svc.content ch.req.pathname) ch.req.client
      (s.opened ch.req.client) (sent s ch.req.client) pc) : Inv svc (setChild s i ch pc) :=
  inv_child h hch (fun _ => rfl) (fun _ _ => rfl) (fun _ _ => rfl) hpc

theorem mem_requests {s : State} {i : ℕ} {ch : Child} (hch : s.children[i]? = some ch) :
    ch.req ∈ requests s := by
  rw [requests, List.append_assoc]
  exact List.mem_append_left _ (List.mem_map_of_mem (List.mem_of_getElem? hch))

/-- A child moves to `pc` with a message to its client. -/
theorem inv_push {s : State} (h : Inv svc s) {i : ℕ} {ch : Child} (hch : s.children[i]? = some ch)
    {q : List ResponseMsg} (hq : s.queue ch.req.clientId = some q) {pc : ChildPc} {m : ResponseMsg}
    (hpc : StreamOk (svc.content ch.req.pathname) ch.req.client (s.opened ch.req.client)
      (sent s ch.req.client ++ [m]) pc) :
    Inv svc (push (setChild s i ch pc) ch.req.clientId m) := by
  have hid := (h.mem _ (mem_requests hch)).1
  refine @inv_child svc s h i ch hch pc _ s.opened (fun id => ?_) (fun c hc => ?_)
    (fun _ _ => rfl) ?_
  · by_cases he : id = ch.req.clientId
    · subst he
      simp [setChild]
    · simp [Function.update_of_ne he, setChild]
  · exact bind_update_of_ne fun hcid => hc (h.inj _ _ _ hcid hid)
  · simpa [sent, hid, hq, setChild] using hpc

theorem mtype_of_mem_data {c : ℕ} {bs : List (List UInt8)} {m : ResponseMsg}
    (h : m ∈ bs.map (dataMsg c)) : m.mtype = .data := by
  obtain ⟨b, -, rfl⟩ := List.mem_map.mp h
  rfl

/-- A message that is not data is the last one of its child. -/
theorem stream_last {content : List UInt8} {c : ℕ} {opened : Option Bool} {pc : ChildPc}
    {p q : List ResponseMsg} {m : ResponseMsg} (h : StreamOk content c opened (p ++ m :: q) pc)
    (hm : m.mtype ≠ .data) : q = [] ∧ pc = .exited := by
  have hmem : m ∈ p ++ m :: q := by simp
  cases pc with
  | opening => simp [StreamOk] at h
  | sendFailure => simp [StreamOk] at h
  | reading rest =>
    obtain ⟨bs, -, hl, -⟩ := h
    exact absurd (mtype_of_mem_data (hl ▸ hmem)) hm
  | sending b rest =>
    obtain ⟨bs, -, -, hl, -⟩ := h
    exact absurd (mtype_of_mem_data (hl ▸ hmem)) hm
  | sendEnd =>
    obtain ⟨bs, -, hl, -⟩ := h
    exact absurd (mtype_of_mem_data (hl ▸ hmem)) hm
  | exited =>
    refine ⟨?_, rfl⟩
    rcases h with ⟨bs, -, hl, -⟩ | ⟨hl, -⟩
    · rcases List.eq_nil_or_concat q with rfl | ⟨q', x, rfl⟩
      · rfl
      · rw [List.concat_eq_append, ← List.cons_append, ← List.append_assoc] at hl
        have hinit := (List.append_inj' hl rfl).1
        have hmem' : m ∈ p ++ m :: q' := by simp
        exact absurd (mtype_of_mem_data (hinit ▸ hmem')) hm
    · have hlen := congrArg List.length hl
      simp only [List.length_append, List.length_cons, List.length_nil] at hlen
      exact List.eq_nil_of_length_eq_zero (by omega)

theorem reportOk_last {l : List ResponseMsg} {r : Report} (h : ReportOk l r) :
    ∃ p m, l = p ++ [m] ∧ m.mtype ≠ .data := by
  cases r with
  | failure text =>
    obtain ⟨m, hl, hm, -⟩ := h
    exact ⟨[], m, hl, by simp [hm]⟩
  | received totBytes numMsgs => exact h.1

/-- A client that has not been sent everything is still there to receive it. -/
theorem queue_exists {s : State} (h : Inv svc s) {i : ℕ} {ch : Child}
    (hch : s.children[i]? = some ch) (hpc : ch.pc ≠ .exited) :
    ∃ q, s.queue ch.req.clientId = some q := by
  have hmem := mem_requests hch
  have hasked := (h.asked ch.req.client).mp (List.mem_map_of_mem hmem)
  have hlive := h.live ch.req.client
  rw [(h.mem _ hmem).1, Option.bind_some] at hlive
  refine Option.isSome_iff_exists.mp (hlive.trans ?_)
  cases hcl : s.client ch.req.client with
  | finished r =>
    have hok := h.client ch.req.client
    rw [hcl] at hok
    obtain ⟨p, m, hl, hm⟩ := reportOk_last hok
    have hstream := h.child ch (List.mem_of_getElem? hch)
    rw [sent, hl, List.append_assoc] at hstream
    exact absurd (stream_last hstream hm).2 hpc
  | start | usageErr | ready => simp [hcl, ClientPc.asked] at hasked
  | _ => rfl

theorem inv_childOpen {s s' : State} (h : Inv svc s) {i : ℕ} {ch : Child} {ok : Bool}
    (hch : s.children[i]? = some ch) (hs : childOpen svc s i ch ok = some s') : Inv svc s' := by
  have hold := h.child ch (List.mem_of_getElem? hch)
  unfold childOpen at hs
  split at hs
  · next hpc =>
    rw [hpc] at hold
    obtain rfl := Option.some.inj hs
    refine inv_child h hch (fun _ => rfl) (fun _ _ => rfl)
      (fun c hc => Function.update_of_ne hc _ _) ?_
    rw [Function.update_self]
    cases ok with
    | true => exact ⟨[], by simp [Blocks], hold, rfl⟩
    | false => exact ⟨hold, rfl⟩
  · cases hs

theorem inv_childRead {s s' : State} (h : Inv svc s) {i n : ℕ} {ch : Child}
    (hch : s.children[i]? = some ch) (hs : childRead s i ch n = some s') : Inv svc s' := by
  have hold := h.child ch (List.mem_of_getElem? hch)
  unfold childRead at hs
  split at hs
  · next rest hpc =>
    rw [hpc] at hold
    obtain ⟨bs, hbs, hl, hc⟩ := hold
    split_ifs at hs with hrest hn
    · subst hrest
      exact Option.some.inj hs ▸ inv_setChild h hch ⟨bs, hbs, hl, by simpa using hc⟩
    · obtain ⟨h1, h2, h3⟩ := hn
      have hb : rest.take n ≠ [] ∧ (rest.take n).length ≤ RESP_MSG_SIZE := by
        refine ⟨fun he => ?_, by simp [h2]⟩
        rcases List.take_eq_nil_iff.mp he with h0 | h0
        · omega
        · exact hrest h0
      refine Option.some.inj hs ▸ inv_setChild h hch ⟨bs, hbs, hb, hl, ?_⟩
      rw [List.take_append_drop, hc]
  · cases hs

theorem inv_childSend {s s' : State} (h : Inv svc s) {i : ℕ} {ch : Child}
    (hch : s.children[i]? = some ch) (hs : childSend s i ch = some s') : Inv svc s' := by
  have hold := h.child ch (List.mem_of_getElem? hch)
  simp only [childSend] at hs
  split at hs
  · next block rest hpc =>
    obtain ⟨q, hq⟩ := queue_exists h hch (by simp [hpc])
    rw [hpc] at hold
    obtain ⟨bs, hbs, hb, hl, hc⟩ := hold
    rw [hq, Option.isSome_some, if_pos rfl] at hs
    refine Option.some.inj hs ▸ inv_push h hch hq ⟨bs ++ [block], ?_, ?_, ?_⟩
    · intro b hmem
      rcases List.mem_append.mp hmem with hmem | hmem
      · exact hbs b hmem
      · exact List.mem_singleton.mp hmem ▸ hb
    · rw [hl, List.map_append, List.map_singleton]
    · rw [List.flatten_append, List.flatten_singleton, List.append_assoc, hc]
  · next hpc =>
    obtain ⟨q, hq⟩ := queue_exists h hch (by simp [hpc])
    rw [hpc] at hold
    obtain ⟨bs, hbs, hl, hc⟩ := hold
    exact Option.some.inj hs ▸ inv_push h hch hq (.inl ⟨bs, hbs, by rw [hl], hc⟩)
  · next hpc =>
    obtain ⟨q, hq⟩ := queue_exists h hch (by simp [hpc])
    rw [hpc] at hold
    exact Option.some.inj hs ▸ inv_push h hch hq (.inr ⟨by rw [hold.1, List.nil_append], hold.2⟩)
  · cases hs

/-! ## Steps of the clients -/

section MoveClient

variable {s : State} (h : Inv svc s) {c : ℕ} {pc : ClientPc}
include h

theorem Inv.client_update (hpc : ClientOk (s.received c) pc) (c' : ℕ) :
    ClientOk (s.received c') (Function.update s.client c pc c') :=
  (Function.forall_update_iff s.client (p := fun c' pc => ClientOk (s.received c') pc)).mpr
    ⟨hpc, fun c' _ => h.client c'⟩ c'

theorem Inv.live_update (hlive : pc.live = (s.client c).live) (c' : ℕ) :
    ((s.qid c').bind s.queue).isSome = (Function.update s.client c pc c').live :=
  (Function.forall_update_iff s.client
    (p := fun c' pc => ((s.qid c').bind s.queue).isSome = pc.live)).mpr
    ⟨(h.live c).trans hlive.symm, fun c' _ => h.live c'⟩ c'

theorem Inv.asked_update (hasked : pc.asked = (s.client c).asked) (c' : ℕ) :
    c' ∈ (requests s).map RequestMsg.client ↔ (Function.update s.client c pc c').asked :=
  (Function.forall_update_iff s.client
    (p := fun c' pc => c' ∈ (requests s).map RequestMsg.client ↔ pc.asked)).mpr
    ⟨hasked ▸ h.asked c, fun c' _ => h.asked c'⟩ c'

theorem Inv.unasked (hc : (s.client c).asked = false) :
    c ∉ (requests s).map RequestMsg.client := by
  rw [h.asked c, hc]
  simp

/-- Client `c` gets a queue that no client has. -/
theorem Inv.inj_update {id : ℕ} (hne : ∀ c', s.qid c' ≠ some id) {a b j : ℕ}
    (ha : Function.update s.qid c (some id) a = some j)
    (hb : Function.update s.qid c (some id) b = some j) : a = b := by
  by_cases hac : a = c <;> by_cases hbc : b = c
  · rw [hac, hbc]
  · rw [hac, Function.update_self] at ha
    rw [Function.update_of_ne hbc, ← ha] at hb
    exact absurd hb (hne b)
  · rw [hbc, Function.update_self] at hb
    rw [Function.update_of_ne hac, ← hb] at ha
    exact absurd ha (hne a)
  · rw [Function.update_of_ne hac] at ha
    rw [Function.update_of_ne hbc] at hb
    exact h.inj a b j ha hb

end MoveClient

/-- A client moves to `pc`; what has been sent to it stays the same. -/
theorem inv_client {s : State} (h : Inv svc s) {c : ℕ} {pc : ClientPc}
    {queue : ℕ → Option (List ResponseMsg)} {received : ℕ → List ResponseMsg}
    (hsent : ∀ c', received c' ++ ((s.qid c').bind queue).getD [] = sent s c')
    (hlive : ∀ c', ((s.qid c').bind queue).isSome = (Function.update s.client c pc c').live)
    (hasked : pc.asked = (s.client c).asked)
    (hclient : ∀ c', ClientOk (received c') (Function.update s.client c pc c')) :
    Inv svc { setClient s c pc with queue := queue, received := received } where
  used := h.used
  fits := h.fits
  inj := h.inj
  live := hlive
  nodup := h.nodup
  mem := h.mem
  asked := h.asked_update hasked
  child ch hch := by
    have hold := h.child ch hch
    rw [← hsent] at hold
    exact hold
  quiet c' hc' := (hsent c').trans (h.quiet c' hc')
  client := hclient

/-- A client moves to `pc` without a change to its queue. -/
theorem inv_setClient {s : State} (h : Inv svc s) {c : ℕ} {pc : ClientPc}
    (hlive : pc.live = (s.client c).live) (hasked : pc.asked = (s.client c).asked)
    (hpc : ClientOk (s.received c) pc) : Inv svc (setClient s c pc) :=
  inv_client h (fun _ => rfl) (h.live_update hlive) hasked (h.client_update hpc)

/-- `msgget(IPC_PRIVATE)` makes an empty queue under a new identifier. -/
theorem inv_msgget {s : State} (h : Inv svc s) {c id : ℕ} (hc : s.client c = .start)
    (hlen : (svc.pathname c).length ≤ PATH_MAX - 1) (hid : id ∉ s.used) :
    Inv svc { setClient s c .ready with
      used := id :: s.used
      queue := Function.update s.queue id (some [])
      qid := Function.update s.qid c (some id) } := by
  have hlive := h.live c
  rw [hc] at hlive
  have hnone : (s.qid c).bind s.queue = none :=
    Option.not_isSome_iff_eq_none.mp (by rw [hlive]; simp [ClientPc.live])
  have hne (c' : ℕ) : s.qid c' ≠ some id := fun he => hid (h.used c' id he)
  have hsent (c' : ℕ) : s.received c' ++ ((Function.update s.qid c (some id) c').bind
      (Function.update s.queue id (some []))).getD [] = sent s c' := by
    by_cases he : c' = c
    · subst he
      simp [sent, hnone]
    · rw [Function.update_of_ne he, bind_update_of_ne (hne c'), sent]
  refine {
    used := ?_
    fits := ?_
    inj := fun _ _ _ => h.inj_update hne
    live := fun c' => ?_
    nodup := h.nodup
    mem := fun r hr => ?_
    asked := h.asked_update (by rw [hc]; rfl)
    child := fun ch hch => ?_
    quiet := fun c' hc' => (hsent c').trans (h.quiet c' hc')
    client := h.client_update (by simpa [ClientOk, hc] using h.client c) }
  · exact (Function.forall_update_iff s.qid
        (p := fun _ o => ∀ j, o = some j → j ∈ id :: s.used)).mpr
      ⟨fun j hj => Option.some.inj hj ▸ List.mem_cons_self,
        fun c' _ j hj => List.mem_cons_of_mem _ (h.used c' j hj)⟩
  · exact (Function.forall_update_iff s.qid
      (p := fun c' o => ∀ j, o = some j → (svc.pathname c').length ≤ PATH_MAX - 1)).mpr
      ⟨fun _ _ => hlen, fun c' _ => h.fits c'⟩
  · change ((Function.update s.qid c (some id) c').bind
      (Function.update s.queue id (some []))).isSome = (Function.update s.client c .ready c').live
    by_cases he : c' = c
    · subst he
      simp [ClientPc.live]
    · rw [Function.update_of_ne he, Function.update_of_ne he, bind_update_of_ne (hne c'), h.live c']
  · have hrc : r.client ≠ c := by
      rintro rfl
      exact h.unasked (by rw [hc]; rfl) (List.mem_map_of_mem hr)
    obtain ⟨hq, hp⟩ := h.mem r hr
    exact ⟨(Function.update_of_ne hrc _ _).trans hq, hp⟩
  · have hold := h.child ch hch
    rw [← hsent] at hold
    exact hold

theorem inv_clientStart {s s' : State} (h : Inv svc s) {c id : ℕ}
    (hs : clientStart svc s c id = some s') : Inv svc s' := by
  unfold clientStart at hs
  split at hs
  · next hc =>
    split_ifs at hs with hlen hid
    · have hnil : s.received c = [] := by simpa [ClientOk, hc] using h.client c
      exact Option.some.inj hs ▸ inv_setClient h (by rw [hc]; rfl) (by rw [hc]; rfl) hnil
    · exact Option.some.inj hs ▸ inv_msgget h hc (by omega) hid
  · cases hs

theorem inv_clientRequest {s s' : State} (h : Inv svc s) {c : ℕ}
    (hs : clientRequest svc s c = some s') : Inv svc s' := by
  unfold clientRequest at hs
  split at hs
  · next id hc hid =>
    obtain rfl := Option.some.inj hs
    have hpath : strncpy (PATH_MAX - 1) (svc.pathname c) = svc.pathname c :=
      strncpy_of_le (h.fits c id hid)
    let req : RequestMsg := ⟨id, strncpy (PATH_MAX - 1) (svc.pathname c), c⟩
    have hreq : requests { setClient s c .first with serverQ := s.serverQ ++ [req] } =
        requests s ++ [req] := by
      simp [requests, setClient]
    refine { h with
      live := h.live_update (by rw [hc]; rfl)
      nodup := ?_
      mem := ?_
      asked := ?_
      client := h.client_update (by simpa [ClientOk, hc] using h.client c) }
    · rw [hreq, List.map_append]
      exact h.nodup.append (List.nodup_singleton _)
        (List.disjoint_singleton.mpr (h.unasked (by rw [hc]; rfl)))
    · rw [hreq]
      intro r hr
      rcases List.mem_append.mp hr with hr | hr
      · exact h.mem r hr
      · obtain rfl := List.mem_singleton.mp hr
        exact ⟨hid, hpath⟩
    · rw [hreq, List.map_append]
      refine (Function.forall_update_iff s.client
        (p := fun c' pc => c' ∈ _ ++ [c] ↔ pc.asked)).mpr ⟨by simp [ClientPc.asked],
          fun c' hc' => ?_⟩
      rw [← h.asked c', List.mem_append, List.mem_singleton, or_iff_left hc']
  · cases hs

theorem counted_append {l : List ResponseMsg} {totBytes : BitVec 64} {numMsgs : BitVec 32}
    (h : Counted l totBytes numMsgs) (m : ResponseMsg) :
    Counted (l ++ [m]) (totBytes + BitVec.ofNat 64 m.data.length) (numMsgs + 1) := by
  obtain ⟨hb, hn⟩ := h
  constructor
  · rw [hb, ← BitVec.ofNat_add]
    simp [bytes]
  · rw [hn, List.length_append, BitVec.ofNat_add]
    rfl

theorem onReceive_spec {l : List ResponseMsg} {pc pc' : ClientPc} {m : ResponseMsg}
    (hl : ClientOk l pc) (h : onReceive m pc = some pc') :
    ClientOk (l ++ [m]) pc' ∧ pc'.live = pc.live ∧ pc'.asked = pc.asked := by
  unfold onReceive at h
  split at h
  · obtain rfl := Option.some.inj h
    obtain rfl : l = [] := hl
    unfold afterFirst
    split_ifs with hm
    · exact ⟨⟨m, rfl, hm, rfl⟩, rfl, rfl⟩
    · exact ⟨⟨⟨[], m, rfl, rfl⟩, by simpa [Accepted] using hm, by simp [bytes], rfl⟩, rfl, rfl⟩
  · obtain rfl := Option.some.inj h
    obtain ⟨⟨p, m', hp, -⟩, hacc, hcount⟩ := hl
    have hacc' : Accepted (l ++ [m]) := by
      rw [Accepted, List.head?_append_of_ne_nil _ (by simp [hp])]
      exact hacc
    exact ⟨⟨⟨l, m, rfl, rfl⟩, hacc', counted_append hcount m⟩, rfl, rfl⟩
  · cases h

theorem inv_clientReceive {s s' : State} (h : Inv svc s) {c : ℕ}
    (hs : clientReceive s c = some s') : Inv svc s' := by
  obtain ⟨id, hid, hs⟩ := Option.bind_eq_some_iff.mp hs
  split at hs
  · next resp q hq =>
    obtain ⟨pc, hpc, hs⟩ := Option.bind_eq_some_iff.mp hs
    obtain rfl := Option.some.inj hs
    obtain ⟨hok, hlive, hasked⟩ := onReceive_spec (h.client c) hpc
    have hne {c' : ℕ} (hc' : c' ≠ c) : s.qid c' ≠ some id := fun he => hc' (h.inj _ _ _ he hid)
    refine inv_client h (fun c' => ?_) (fun c' => ?_) hasked (fun c' => ?_)
    · by_cases hc' : c' = c
      · subst hc'
        simp [sent, hid, hq]
      · rw [Function.update_of_ne hc', bind_update_of_ne (hne hc'), sent]
    · by_cases hc' : c' = c
      · subst hc'
        rw [Function.update_self, hlive, ← h.live c', hid]
        simp [hq]
      · rw [Function.update_of_ne hc', bind_update_of_ne (hne hc'), h.live c']
    · by_cases hc' : c' = c
      · subst hc'
        rw [Function.update_self, Function.update_self]
        exact hok
      · rw [Function.update_of_ne hc', Function.update_of_ne hc']
        exact h.client c'
  · cases hs

theorem inv_clientReport {s s' : State} (h : Inv svc s) {c : ℕ}
    (hs : clientReport s c = some s') : Inv svc s' := by
  unfold clientReport at hs
  split at hs
  · next mtype totBytes numMsgs hc =>
    split_ifs at hs with hm
    have hold := h.client c
    rw [hc] at hold
    obtain ⟨⟨p, m, hl, rfl⟩, hcount⟩ := hold
    exact Option.some.inj hs ▸ inv_setClient h (by rw [hc]; rfl) (by rw [hc]; rfl)
      ⟨⟨p, m, hl, hm⟩, hcount⟩
  · cases hs

theorem reportOk_of_printed {s : State} (h : Inv svc s) {c : ℕ} {r : Report}
    (hc : s.client c = .printed r ∨ s.client c = .finished r) : ReportOk (s.received c) r := by
  have hok := h.client c
  rcases hc with hc | hc <;> (rw [hc] at hok; exact hok)

/-- When a client has printed its report, there is a child that has sent everything to it. -/
theorem served_of_printed {s : State} (h : Inv svc s) {c : ℕ} {r : Report}
    (hc : s.client c = .printed r ∨ s.client c = .finished r) :
    ∃ ch ∈ s.children, ch.req.client = c ∧ ch.pc = .exited ∧ sent s c = s.received c := by
  obtain ⟨p, m, hl, hm⟩ := reportOk_last (reportOk_of_printed h hc)
  have hsent : sent s c = p ++ m :: ((s.qid c).bind s.queue).getD [] := by
    rw [sent, hl, List.append_assoc, List.singleton_append]
  have hserved : c ∈ s.children.map fun ch => ch.req.client := by
    by_contra hno
    have hnil := h.quiet c hno
    simp [hsent] at hnil
  obtain ⟨ch, hch, rfl⟩ := List.mem_map.mp hserved
  have hstream := h.child ch hch
  rw [hsent] at hstream
  obtain ⟨hq, hpc⟩ := stream_last hstream hm
  exact ⟨ch, hch, rfl, hpc, by rw [hsent, hq, hl]⟩

theorem inv_removeQueue {s s' : State} (h : Inv svc s) {c : ℕ}
    (hs : removeQueue s c = some s') : Inv svc s' := by
  unfold removeQueue at hs
  split at hs
  · next r id hc hid =>
    obtain rfl := Option.some.inj hs
    obtain ⟨-, -, -, -, hsent⟩ := served_of_printed h (.inl hc)
    have hne {c' : ℕ} (hc' : c' ≠ c) : s.qid c' ≠ some id := fun he => hc' (h.inj _ _ _ he hid)
    refine inv_client h (fun c' => ?_) (fun c' => ?_) (by rw [hc]; rfl)
      (h.client_update (reportOk_of_printed h (.inl hc)))
    · by_cases hc' : c' = c
      · subst hc'
        simp [setClient, hid, hsent]
      · rw [bind_update_of_ne (hne hc')]
        rfl
    · by_cases hc' : c' = c
      · subst hc'
        simp [hid, ClientPc.live]
      · rw [Function.update_of_ne hc', bind_update_of_ne (hne hc'), h.live c']
  · cases hs

theorem inv_step {s s' : State} (a : Act) (h : Inv svc s) (hs : step svc s a = some s') :
    Inv svc s' := by
  cases a with
  | clientStart c id => exact inv_clientStart h hs
  | clientRequest c => exact inv_clientRequest h hs
  | clientReceive c => exact inv_clientReceive h hs
  | clientReport c => exact inv_clientReport h hs
  | removeQueue c => exact inv_removeQueue h hs
  | parentEintr =>
    simp only [step, Option.ite_none_right_eq_some, Option.some.injEq] at hs
    exact hs.2 ▸ h
  | parentReceive => exact inv_parentReceive h hs
  | parentFork => exact inv_parentFork h hs
  | childOpen i ok =>
    obtain ⟨ch, hch, hs⟩ := Option.bind_eq_some_iff.mp hs
    exact inv_childOpen h hch hs
  | childRead i n =>
    obtain ⟨ch, hch, hs⟩ := Option.bind_eq_some_iff.mp hs
    exact inv_childRead h hch hs
  | childSend i =>
    obtain ⟨ch, hch, hs⟩ := Option.bind_eq_some_iff.mp hs
    exact inv_childSend h hch hs

/-! ## What the clients get -/

theorem bytes_delivered (c : ℕ) (bs : List (List UInt8)) :
    bytes (bs.map (dataMsg c) ++ [finMsg c]) = bs.flatten.length := by
  simp [bytes, dataMsg, finMsg, List.length_flatten, Function.comp_def]

theorem client_of_stream {content : List UInt8} {c : ℕ} {opened : Option Bool} {pc : ChildPc}
    {l : List ResponseMsg} (h : StreamOk content c opened l pc) : ∀ m ∈ l, m.client = c := by
  have hdata (bs : List (List UInt8)) : ∀ m ∈ bs.map (dataMsg c), m.client = c := by
    intro m hm
    obtain ⟨b, -, rfl⟩ := List.mem_map.mp hm
    rfl
  cases pc with
  | opening => simp [show l = [] from h]
  | sendFailure => simp [h.1]
  | reading rest =>
    obtain ⟨bs, -, rfl, -⟩ := h
    exact hdata bs
  | sending b rest =>
    obtain ⟨bs, -, -, rfl, -⟩ := h
    exact hdata bs
  | sendEnd =>
    obtain ⟨bs, -, rfl, -⟩ := h
    exact hdata bs
  | exited =>
    rcases h with ⟨bs, -, rfl, -⟩ | ⟨rfl, -⟩
    · intro m hm
      rcases List.mem_append.mp hm with hm | hm
      · exact hdata bs m hm
      · rw [List.mem_singleton.mp hm]
        rfl
    · simp [failureMsg]

/-- The file came in blocks and an end message, and the counts are of those. -/
def Delivered (svc : Service) (s : State) (c : ℕ) (r : Report) : Prop :=
  ∃ bs, Blocks bs ∧ s.received c = bs.map (dataMsg c) ++ [finMsg c] ∧
    bs.flatten = svc.content (svc.pathname c) ∧
    ∃ totBytes numMsgs, r = .received totBytes numMsgs ∧
      totBytes = BitVec.ofNat 64 (svc.content (svc.pathname c)).length ∧
      numMsgs = BitVec.ofNat 32 (bs.length + 1) ∧
      ((svc.content (svc.pathname c)).length < 2 ^ 63 →
        totBytes.toInt = (svc.content (svc.pathname c)).length) ∧
      (bs.length + 1 < 2 ^ 31 → numMsgs.toInt = bs.length + 1)

def Refused (s : State) (c : ℕ) (r : Report) : Prop :=
  r = .failure couldntOpen ∧ s.opened c = some false

theorem toInt_ofNat_of_lt {w n : ℕ} (h : n < 2 ^ w) : (BitVec.ofNat (w + 1) n).toInt = n := by
  rw [BitVec.toInt_eq_toNat_of_lt, BitVec.toNat_ofNat, Nat.mod_eq_of_lt]
  · exact h.trans (Nat.pow_lt_pow_succ (by norm_num))
  · rw [BitVec.toNat_ofNat, Nat.mod_eq_of_lt (h.trans (Nat.pow_lt_pow_succ (by norm_num))),
      pow_succ]
    omega

theorem cstr_failureMsg (c : ℕ) : cstr (failureMsg c).data = couldntOpen := by
  change cstr (couldntOpen ++ [0]) = couldntOpen
  decide

theorem report_spec {s : State} (h : Inv svc s) {c : ℕ} {r : Report}
    (hc : s.client c = .printed r ∨ s.client c = .finished r) :
    Refused s c r ∨ Delivered svc s c r := by
  have hok := reportOk_of_printed h hc
  obtain ⟨ch, hch, rfl, hpc, hsent⟩ := served_of_printed h hc
  have hstream := h.child ch hch
  have hreq : ch.req ∈ requests s := by
    rw [requests, List.append_assoc]
    exact List.mem_append_left _ (List.mem_map_of_mem hch)
  rw [hpc, hsent, (h.mem _ hreq).2] at hstream
  cases r with
  | failure text =>
    obtain ⟨m, hm, hmt, rfl⟩ := hok
    rcases hstream with ⟨bs, -, hl, -⟩ | ⟨hl, ho⟩
    · have hlast : [m].getLast? = some (finMsg ch.req.client) := by simp [← hm, hl]
      rw [List.getLast?_singleton, Option.some.injEq] at hlast
      simp [hlast, finMsg] at hmt
    · obtain rfl : m = failureMsg ch.req.client := by simpa [hm] using hl
      exact .inl ⟨congrArg Report.failure (cstr_failureMsg _), ho⟩
  | received totBytes numMsgs =>
    obtain ⟨-, hacc, ht, hn⟩ := hok
    rcases hstream with ⟨bs, hbs, hl, hcont⟩ | ⟨hl, -⟩
    · rw [hl, bytes_delivered, hcont] at ht
      replace hn : numMsgs = BitVec.ofNat 32 (bs.length + 1) := by simpa [hl] using hn
      refine .inr ⟨bs, hbs, hl, hcont, totBytes, numMsgs, rfl, ht, hn, fun hlt => ?_, fun hlt => ?_⟩
      · rw [ht, toInt_ofNat_of_lt hlt]
      · rw [hn, toInt_ofNat_of_lt hlt]
        rfl
    · simp [Accepted, hl, failureMsg] at hacc

theorem received_own {s : State} (h : Inv svc s) {c : ℕ} {m : ResponseMsg}
    (hm : m ∈ s.received c) : m.client = c := by
  have hsent : m ∈ sent s c := List.mem_append_left _ hm
  by_cases hserved : c ∈ s.children.map fun ch => ch.req.client
  · obtain ⟨ch, hch, rfl⟩ := List.mem_map.mp hserved
    exact client_of_stream (h.child ch hch) m hsent
  · simp [h.quiet c hserved] at hsent

/-- Every client that has printed its report was refused or has the file, and no client receives a
message of another. -/
theorem svmsg_file_correct (svc : Service) {s : State} (hs : (machine svc).Reachable s) :
    (∀ c r, s.client c = .printed r ∨ s.client c = .finished r →
      Refused s c r ∨ Delivered svc s c r) ∧
      ∀ c, ∀ m ∈ s.received c, m.client = c := by
  have h : Inv svc s := hs.invariant (fun _ h0 => h0 ▸ inv_initial) fun _ a _ => inv_step a
  exact ⟨fun c r hc => report_spec h hc, fun c m => received_own h⟩

/-- Client 0 asks for a file of three bytes, client 1 for one that cannot be opened. -/
def twoFiles : Service where
  pathname c := if c = 0 then "a".toList else "b".toList
  content p := if p = "a".toList then [104, 105, 10] else []

theorem svmsg_file_correct_run : ∃ s, (machine twoFiles).Reachable s ∧
    (s.client 0 = .finished (.received 3 3) ∧ s.client 1 = .finished (.failure couldntOpen)) ∧
    (Refused s 0 (.received 3 3) ∨ Delivered twoFiles s 0 (.received 3 3)) := by
  obtain ⟨s, hs, hp⟩ := Machine.exists_reachable_of_exec (M := machine twoFiles) (s := initial) rfl
    [.clientStart 1 7, .clientStart 0 5, .clientRequest 1, .clientRequest 0, .parentReceive,
      .parentFork, .parentEintr, .parentReceive, .parentFork, .childOpen 1 true, .childRead 1 2,
      .childOpen 0 false, .childSend 1, .clientReceive 0, .childRead 1 1, .childSend 0,
      .childSend 1,
      .childRead 1 0, .childSend 1, .clientReceive 1, .clientReceive 0, .clientReceive 0,
      .clientReport 0, .removeQueue 1, .removeQueue 0]
    (fun s => decide (s.client 0 = .finished (.received 3 3) ∧
      s.client 1 = .finished (.failure couldntOpen))) (by decide)
  have hc := of_decide_eq_true hp
  exact ⟨s, hs, hc, (svmsg_file_correct twoFiles hs).1 0 _ (.inr hc.1)⟩

end Tlpi.Svmsg
