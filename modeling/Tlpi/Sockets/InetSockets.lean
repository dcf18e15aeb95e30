import Tlpi.Lib.Fds

/-! `sockets/inet_sockets.c`: the descriptors that `inetConnect()`, `inetListen()` and `inetBind()`
open and close, for every list of addresses and every outcome of the calls on them. -/

namespace Tlpi.Sockets.InetSockets

open Lib

/-- `struct addrinfo` -/
structure Addrinfo where
  family : ℤ
  socktype : ℤ
  protocol : ℤ
  addr : List UInt8
  addrlen : ℕ

/-- An element of the list that `getaddrinfo()` returns, with which of the calls for it succeed. -/
structure Attempt where
  ai : Addrinfo
  socket : Bool
  setsockopt : Bool
  connect : Bool
  bind : Bool
  listen : Bool

inductive Status
  | created
  | connected (addr : List UInt8)
  | bound (addr : List UInt8)
  | listening (addr : List UInt8) (backlog : ℤ)

structure Socket where
  family : ℤ
  socktype : ℤ
  protocol : ℤ
  reuseaddr : Bool
  status : Status

inductive Event
  | opened (fd : ℕ)
  | closed (fd : ℕ)

structure Sys where
  fds : Fds Socket
  log : List Event

namespace Sys

def socket (s : Sys) (ai : Addrinfo) : Sys :=
  ⟨s.fds.install ⟨ai.family, ai.socktype, ai.protocol, false, .created⟩,
    s.log ++ [.opened s.fds.lowest]⟩

def close (s : Sys) (fd : ℕ) : Sys := ⟨s.fds.close fd, s.log ++ [.closed fd]⟩

def setsockopt (s : Sys) (fd : ℕ) : Sys :=
  { s with fds := s.fds.update fd fun sock => { sock with reuseaddr := true } }

def become (s : Sys) (fd : ℕ) (status : Status) : Sys :=
  { s with fds := s.fds.update fd fun sock => { sock with status := status } }

end Sys

/-- What a function returns, and `*addrlen` where `addrlen` is not `NULL`. -/
structure Return where
  ret : ℤ
  addrlen : Option ℕ
  sys : Sys

/-- The loop of `inetConnect()` ends with `rp` and `sfd`. -/
def connectLoop : List Attempt → Sys → Option (Attempt × ℕ) × Sys
  | [], s => (none, s)
  | rp :: rest, s =>
    if rp.socket then
      let sfd := s.fds.lowest
      let s := s.socket rp.ai
      if rp.connect then (some (rp, sfd), s.become sfd (.connected rp.ai.addr))
      else connectLoop rest (s.close sfd)
    else connectLoop rest s

/-- The list is `none` if `getaddrinfo()` fails. -/
def inetConnect (result : Option (List Attempt)) (s : Sys) : Return :=
  match result with
  | none => ⟨-1, none, s⟩
  | some list =>
    match connectLoop list s with
    | (none, s) => ⟨-1, none, s⟩
    | (some (_, sfd), s) => ⟨sfd, none, s⟩

/-- The loop of `inetPassiveSocket()` ends with `rp` and `sfd`, or returns from the function. -/
inductive Exit
  | endOfList
  | found (rp : Attempt) (sfd : ℕ)
  | returned

def passiveLoop (doListen : Bool) : List Attempt → Sys → Exit × Sys
  | [], s => (.endOfList, s)
  | rp :: rest, s =>
    if rp.socket then
      let sfd := s.fds.lowest
      let s := s.socket rp.ai
      if doListen && !rp.setsockopt then (.returned, s.close sfd)
      else
        let s := if doListen then s.setsockopt sfd else s
        if rp.bind then (.found rp sfd, s.become sfd (.bound rp.ai.addr))
        else passiveLoop doListen rest (s.close sfd)
    else passiveLoop doListen rest s

def inetPassiveSocket (result : Option (List Attempt)) (addrlen : Option ℕ) (doListen : Bool)
    (backlog : ℤ) (s : Sys) : Return :=
  match result with
  | none => ⟨-1, addrlen, s⟩
  | some list =>
    match passiveLoop doListen list s with
    | (.returned, s) => ⟨-1, addrlen, s⟩
    | (.endOfList, s) => ⟨-1, addrlen, s⟩
    | (.found rp sfd, s) =>
      if doListen then
        -- the descriptor stays open when `listen()` fails
        if rp.listen then
          ⟨sfd, addrlen.map fun _ => rp.ai.addrlen, s.become sfd (.listening rp.ai.addr backlog)⟩
        else ⟨-1, addrlen, s⟩
      else ⟨sfd, addrlen.map fun _ => rp.ai.addrlen, s⟩

def inetListen (result : Option (List Attempt)) (backlog : ℤ) (addrlen : Option ℕ) (s : Sys) :
    Return := inetPassiveSocket result addrlen true backlog s

def inetBind (result : Option (List Attempt)) (addrlen : Option ℕ) (s : Sys) : Return :=
  inetPassiveSocket result addrlen false 0 s

/-! ## Descriptors -/

/-- Each of the descriptors has been opened and closed again. -/
def attempts (fds : List ℕ) : List Event := fds.flatMap fun fd => [.opened fd, .closed fd]

structure Cleaned (s s' : Sys) : Prop where
  log : ∃ fds, s'.log = s.log ++ attempts fds
  files : ∀ fd, s'.fds.file fd = s.fds.file fd

/-- Beside what has been closed again, the descriptor is left open, and refers to the socket. -/
structure Opened (s s' : Sys) (sfd : ℕ) (sock : Socket) : Prop where
  log : ∃ fds, s'.log = s.log ++ attempts fds ++ [.opened sfd]
  unused : s.fds.file sfd = none
  socket : s'.fds.file sfd = some sock
  files : ∀ fd, fd ≠ sfd → s'.fds.file fd = s.fds.file fd

/-- No descriptor leaks: `works` are the addresses for which all the steps succeed. -/
def NoLeak (list : List Attempt) (works : Attempt → Bool) (socket : Attempt → Socket)
    (addrlen : Option ℕ) (s : Sys) (r : Return) : Prop :=
  (r.ret = -1 ∧ Cleaned s r.sys) ∨
    ∃ (sfd : ℕ) (rp : Attempt), r.ret = sfd ∧ list.find? works = some rp ∧
      Opened s r.sys sfd (socket rp) ∧ r.addrlen = addrlen.map fun _ => rp.ai.addrlen

theorem Cleaned.refl (s : Sys) : Cleaned s s := ⟨⟨[], (List.append_nil _).symm⟩, fun _ => rfl⟩

theorem Cleaned.trans {s s' s'' : Sys} (h : Cleaned s s') (h' : Cleaned s' s'') :
    Cleaned s s'' := by
  obtain ⟨fds, hlog⟩ := h.log
  obtain ⟨fds', hlog'⟩ := h'.log
  refine ⟨⟨fds ++ fds', ?_⟩, fun fd => (h'.files fd).trans (h.files fd)⟩
  rw [hlog', hlog, List.append_assoc, attempts, attempts, attempts, List.flatMap_append]

section Opened

variable {s s' s'' : Sys} {sfd : ℕ} {sock : Socket}

theorem Opened.close (h : Opened s s' sfd sock) : Cleaned s (s'.close sfd) := by
  obtain ⟨fds, hlog⟩ := h.log
  refine ⟨⟨fds ++ [sfd], ?_⟩, ?_⟩
  · show s'.log ++ [.closed sfd] = _
    rw [hlog]
    simp [attempts]
  · intro fd
    by_cases hfd : fd = sfd
    · rw [hfd, h.unused]
      exact Fds.file_close_self _ _
    · rw [← h.files fd hfd]
      exact Fds.file_close_of_ne _ hfd

theorem Opened.update (h : Opened s s' sfd sock) (f : Socket → Socket) :
    Opened s { s' with fds := s'.fds.update sfd f } sfd (f sock) := by
  refine ⟨h.log, h.unused, Fds.file_update_self h.socket f, ?_⟩
  intro fd hfd
  exact (Fds.file_update_of_ne _ hfd f).trans (h.files fd hfd)

theorem Cleaned.opened (h : Cleaned s s') (h' : Opened s' s'' sfd sock) :
    Opened s s'' sfd sock := by
  obtain ⟨fds, hlog⟩ := h.log
  obtain ⟨fds', hlog'⟩ := h'.log
  refine ⟨⟨fds ++ fds', ?_⟩, ?_, h'.socket, ?_⟩
  · rw [hlog', hlog]
    simp [attempts]
  · rw [← h.files, h'.unused]
  · intro fd hfd
    rw [h'.files fd hfd, h.files]

/-- The socket of an address. -/
def Addrinfo.socket (ai : Addrinfo) (reuseaddr : Bool) (status : Status) : Socket :=
  ⟨ai.family, ai.socktype, ai.protocol, reuseaddr, status⟩

theorem Opened.become {ai : Addrinfo} {reuseaddr : Bool} {status : Status}
    (h : Opened s s' sfd (ai.socket reuseaddr status)) (status' : Status) :
    Opened s (s'.become sfd status') sfd (ai.socket reuseaddr status') := h.update _

theorem Opened.setsockopt {ai : Addrinfo} {reuseaddr : Bool} {status : Status}
    (h : Opened s s' sfd (ai.socket reuseaddr status)) :
    Opened s (s'.setsockopt sfd) sfd (ai.socket true status) := h.update _

theorem opened_socket (s : Sys) (ai : Addrinfo) :
    Opened s (s.socket ai) s.fds.lowest (ai.socket false .created) := by
  refine ⟨⟨[], by simp [Sys.socket, attempts]⟩, Fds.file_lowest _, Fds.file_install_lowest _ _, ?_⟩
  intro fd hfd
  exact Fds.file_install_of_ne hfd _

end Opened

/-! ## The loops -/

def connects (rp : Attempt) : Bool := rp.socket && rp.connect

/-- If an attempt fails, there is no socket, or one that is closed again. -/
theorem connectLoop_next {rp : Attempt} (h : ¬ connects rp = true) (rest : List Attempt) (s : Sys) :
    ∃ s', connectLoop (rp :: rest) s = connectLoop rest s' ∧ Cleaned s s' := by
  by_cases hsocket : rp.socket = true
  · have hconnect : ¬ rp.connect = true := by simpa [connects, hsocket] using h
    refine ⟨_, ?_, (opened_socket s rp.ai).close⟩
    rw [connectLoop, if_pos hsocket, if_neg hconnect]
  · refine ⟨s, ?_, Cleaned.refl s⟩
    rw [connectLoop, if_neg hsocket]

theorem connectLoop_spec (list : List Attempt) (s : Sys) :
    (∃ s', connectLoop list s = (none, s') ∧ Cleaned s s') ∨
      ∃ rp sfd s', connectLoop list s = (some (rp, sfd), s') ∧ list.find? connects = some rp ∧
        Opened s s' sfd (rp.ai.socket false (.connected rp.ai.addr)) := by
  induction list generalizing s with
  | nil => exact .inl ⟨s, rfl, Cleaned.refl s⟩
  | cons rp rest ih =>
    by_cases hconnects : connects rp = true
    · obtain ⟨hsocket, hconnect⟩ : rp.socket = true ∧ rp.connect = true := by
        simpa [connects] using hconnects
      refine .inr ⟨rp, s.fds.lowest, _, ?_, List.find?_cons_of_pos hconnects,
        (opened_socket s rp.ai).become _⟩
      rw [connectLoop, if_pos hsocket, if_pos hconnect]
    · obtain ⟨s', hloop, hclean⟩ := connectLoop_next hconnects rest s
      rw [hloop, List.find?_cons_of_neg hconnects]
      rcases ih s' with ⟨s'', hend, hclean'⟩ | ⟨rp', sfd, s'', hend, hfind, hopened'⟩
      · exact .inl ⟨s'', hend, hclean.trans hclean'⟩
      · exact .inr ⟨rp', sfd, s'', hend, hfind, hclean.opened hopened'⟩

/-- The address at which the loop of `inetPassiveSocket()` ends. -/
def stops (doListen : Bool) (rp : Attempt) : Bool :=
  rp.socket && (doListen && !rp.setsockopt || rp.bind)

/-- The socket before `bind()`. -/
theorem opened_passive (doListen : Bool) (s : Sys) (ai : Addrinfo) :
    Opened s (if doListen then (s.socket ai).setsockopt s.fds.lowest else s.socket ai)
      s.fds.lowest (ai.socket doListen .created) := by
  cases doListen with
  | true => exact (opened_socket s ai).setsockopt
  | false => exact opened_socket s ai

theorem passiveLoop_next {doListen : Bool} {rp : Attempt} (h : ¬ stops doListen rp = true)
    (rest : List Attempt) (s : Sys) :
    ∃ s', passiveLoop doListen (rp :: rest) s = passiveLoop doListen rest s' ∧ Cleaned s s' := by
  by_cases hsocket : rp.socket = true
  · obtain ⟨hopt, hbind⟩ : ¬ (doListen && !rp.setsockopt) = true ∧ ¬ rp.bind = true := by
      rw [stops, hsocket, Bool.true_and, Bool.or_eq_true] at h
      exact not_or.mp h
    refine ⟨_, ?_, (opened_passive doListen s rp.ai).close⟩
    rw [passiveLoop, if_pos hsocket, if_neg hopt, if_neg hbind]
  · refine ⟨s, ?_, Cleaned.refl s⟩
    rw [passiveLoop, if_neg hsocket]

theorem passiveLoop_spec (doListen : Bool) (list : List Attempt) (s : Sys) :
    (∃ exit s', passiveLoop doListen list s = (exit, s') ∧ (exit = .endOfList ∨ exit = .returned) ∧
        Cleaned s s' ∧
        ∀ rp, list.find? (stops doListen) = some rp → (doListen && !rp.setsockopt) = true) ∨
      ∃ rp sfd s', passiveLoop doListen list s = (.found rp sfd, s') ∧
        list.find? (stops doListen) = some rp ∧ (doListen && !rp.setsockopt) = false ∧
        Opened s s' sfd (rp.ai.socket doListen (.bound rp.ai.addr)) := by
  induction list generalizing s with
  | nil => exact .inl ⟨.endOfList, s, rfl, .inl rfl, Cleaned.refl s, fun _ h => nomatch h⟩
  | cons rp rest ih =>
    by_cases hstops : stops doListen rp = true
    · have hfind : (rp :: rest).find? (stops doListen) = some rp := List.find?_cons_of_pos hstops
      obtain ⟨hsocket, hor⟩ : rp.socket = true ∧
          ((doListen && !rp.setsockopt) = true ∨ rp.bind = true) := by
        rw [stops, Bool.and_eq_true, Bool.or_eq_true] at hstops
        exact hstops
      by_cases hopt : (doListen && !rp.setsockopt) = true
      · refine .inl ⟨.returned, _, ?_, .inr rfl, (opened_socket s rp.ai).close, ?_⟩
        · rw [passiveLoop, if_pos hsocket, if_pos hopt]
        · intro rp' hrp'
          rw [hfind] at hrp'
          exact Option.some.inj hrp' ▸ hopt
      · have hbind : rp.bind = true := hor.resolve_left hopt
        refine .inr ⟨rp, s.fds.lowest, _, ?_, hfind, Bool.not_eq_true _ ▸ hopt,
          (opened_passive doListen s rp.ai).become (.bound rp.ai.addr)⟩
        rw [passiveLoop, if_pos hsocket, if_neg hopt, if_pos hbind]
    · obtain ⟨s', hloop, hclean⟩ := passiveLoop_next hstops rest s
      rw [hloop, List.find?_cons_of_neg hstops]
      rcases ih s' with ⟨exit, s'', hend, hexit, hclean', hopt⟩ | ⟨rp', sfd, s'', hend, hrest⟩
      · exact .inl ⟨exit, s'', hend, hexit, hclean.trans hclean', hopt⟩
      · obtain ⟨hfind, hopt, hopened'⟩ := hrest
        exact .inr ⟨rp', sfd, s'', hend, hfind, hopt, hclean.opened hopened'⟩

/-! ## The functions -/

def binds (rp : Attempt) : Bool := rp.socket && rp.bind

def listens (rp : Attempt) : Bool := rp.socket && rp.setsockopt && rp.bind && rp.listen

/-- The address at which the loop of `inetListen()` ends is bound, and `listen()` fails for it. -/
def ListenFails (list : List Attempt) : Prop :=
  ∃ rp, list.find? (stops true) = some rp ∧ rp.setsockopt = true ∧ rp.listen = false

theorem find?_of_imp {α : Type*} {p q : α → Bool} (himp : ∀ a, q a = true → p a = true)
    {l : List α} {a : α} (hp : l.find? p = some a) (hq : q a = true) : l.find? q = some a := by
  obtain ⟨-, as, bs, rfl, has⟩ := List.find?_eq_some_iff_append.mp hp
  refine List.find?_eq_some_iff_append.mpr ⟨hq, as, bs, rfl, ?_⟩
  intro b hb
  have hnot := has b hb
  cases hqb : q b with
  | false => rfl
  | true => rwa [himp b hqb] at hnot

/-- The address at which the loop ends is the first one that listens if `listen()` succeeds. -/
theorem find?_listens {list : List Attempt} {rp : Attempt}
    (hfind : list.find? (stops true) = some rp) (hset : rp.setsockopt = true)
    (hlisten : rp.listen = true) : list.find? listens = some rp := by
  have hstops : stops true rp = true := List.find?_some hfind
  refine find?_of_imp ?_ hfind ?_
  · intro a ha
    simp only [listens, Bool.and_eq_true] at ha
    simp [stops, ha]
  · simpa [stops, listens, hset, hlisten] using hstops

section Functions

variable (result : Option (List Attempt)) (addrlen : Option ℕ) (backlog : ℤ) (s : Sys)

theorem inetConnect_noLeak :
    NoLeak (result.getD []) connects (fun rp => rp.ai.socket false (.connected rp.ai.addr)) none s
      (inetConnect result s) := by
  cases result with
  | none => exact .inl ⟨rfl, Cleaned.refl s⟩
  | some list =>
    rcases connectLoop_spec list s with ⟨s', hloop, hclean⟩ | ⟨rp, sfd, s', hloop, hfind, hopen⟩
    · rw [inetConnect, hloop]
      exact .inl ⟨rfl, hclean⟩
    · rw [inetConnect, hloop]
      exact .inr ⟨sfd, rp, rfl, hfind, hopen, rfl⟩

theorem inetBind_noLeak :
    NoLeak (result.getD []) binds (fun rp => rp.ai.socket false (.bound rp.ai.addr)) addrlen s
      (inetBind result addrlen s) := by
  cases result with
  | none => exact .inl ⟨rfl, Cleaned.refl s⟩
  | some list =>
    rw [inetBind, inetPassiveSocket]
    rcases passiveLoop_spec false list s with ⟨exit, s', hloop, hexit, hclean, -⟩ |
      ⟨rp, sfd, s', hloop, hfind, -, hopen⟩
    · rw [hloop]
      rcases hexit with rfl | rfl
      · exact .inl ⟨rfl, hclean⟩
      · exact .inl ⟨rfl, hclean⟩
    · rw [hloop]
      exact .inr ⟨sfd, rp, rfl, hfind, hopen, rfl⟩

/-- A descriptor that is left open by a call that returns -1 has leaked. -/
theorem not_noLeak {list : List Attempt} {works : Attempt → Bool} {socket : Attempt → Socket}
    {s' : Sys} {sfd : ℕ} {sock : Socket} (h : Opened s s' sfd sock) :
    ¬ NoLeak list works socket addrlen s ⟨-1, addrlen, s'⟩ := by
  rintro (⟨-, hclean⟩ | ⟨sfd', rp, hret, -⟩)
  · have hfile := hclean.files sfd
    rw [h.socket, h.unused] at hfile
    cases hfile
  · have hneg : (-1 : ℤ) = sfd' := hret
    omega

theorem inetListen_noLeak_iff :
    NoLeak (result.getD []) listens (fun rp => rp.ai.socket true (.listening rp.ai.addr backlog))
      addrlen s (inetListen result backlog addrlen s) ↔ ¬ ListenFails (result.getD []) := by
  cases result with
  | none =>
    refine iff_of_true (.inl ⟨rfl, Cleaned.refl s⟩) ?_
    rintro ⟨rp, hfind, -⟩
    cases hfind
  | some list =>
    rw [inetListen, inetPassiveSocket, Option.getD_some]
    rcases passiveLoop_spec true list s with ⟨exit, s', hloop, hexit, hclean, hopt⟩ |
      ⟨rp, sfd, s', hloop, hfind, hopt, hopen⟩
    · refine iff_of_true ?_ ?_
      · rw [hloop]
        rcases hexit with rfl | rfl
        · exact .inl ⟨rfl, hclean⟩
        · exact .inl ⟨rfl, hclean⟩
      · rintro ⟨rp, hfind, hset, -⟩
        have hfail := hopt rp hfind
        rw [hset] at hfail
        cases hfail
    · have hset : rp.setsockopt = true := by simpa using hopt
      rw [hloop]
      by_cases hlisten : rp.listen = true
      · refine iff_of_true ?_ ?_
        · simp only [if_true, if_pos hlisten]
          exact .inr ⟨sfd, rp, rfl, find?_listens hfind hset hlisten, hopen.become _, rfl⟩
        · rintro ⟨rp', hfind', -, hfail⟩
          obtain rfl : rp = rp' := Option.some.inj (hfind.symm.trans hfind')
          rw [hlisten] at hfail
          cases hfail
      · refine iff_of_false ?_ (not_not.mpr ⟨rp, hfind, hset, Bool.not_eq_true _ ▸ hlisten⟩)
        simp only [if_true, if_neg hlisten]
        exact not_noLeak addrlen s hopen

/-- None of the functions leaks a descriptor, unless `listen()` fails in `inetListen()`. -/
theorem inet_no_leak_iff :
    NoLeak (result.getD []) connects (fun rp => rp.ai.socket false (.connected rp.ai.addr)) none s
      (inetConnect result s) ∧
    NoLeak (result.getD []) binds (fun rp => rp.ai.socket false (.bound rp.ai.addr)) addrlen s
      (inetBind result addrlen s) ∧
    (NoLeak (result.getD []) listens (fun rp => rp.ai.socket true (.listening rp.ai.addr backlog))
      addrlen s (inetListen result backlog addrlen s) ↔ ¬ ListenFails (result.getD [])) :=
  ⟨inetConnect_noLeak result s, inetBind_noLeak result addrlen s,
    inetListen_noLeak_iff result addrlen backlog s⟩

end Functions

/-- An address for which everything succeeds except `listen()`. -/
def unheard : Attempt := ⟨⟨2, 1, 6, [0, 0, 0, 0], 16⟩, true, true, true, true, false⟩

theorem inetListen_leaks :
    (inetListen (some [unheard]) 5 none ⟨[], []⟩).ret = -1 ∧
    (inetListen (some [unheard]) 5 none ⟨[], []⟩).sys.fds.file 0 =
      some ⟨2, 1, 6, true, .bound [0, 0, 0, 0]⟩ ∧
    ¬ NoLeak [unheard] listens (fun rp => rp.ai.socket true (.listening rp.ai.addr 5)) none ⟨[], []⟩
      (inetListen (some [unheard]) 5 none ⟨[], []⟩) := by
  refine ⟨rfl, rfl, ?_⟩
  exact not_noLeak none _
    (((opened_socket ⟨[], []⟩ unheard.ai).setsockopt).become (.bound unheard.ai.addr))

end Tlpi.Sockets.InetSockets
