/-
  Putty.Windows.Closing — closing the windows of the multi-window build
  (`windows/window.c`): WM_CLOSE, WM_DESTROY and the messages that only read a
  window's data, the seat's `notify_remote_exit` and `connection_fatal`, and the queued
  `close_session`.

  The WindowData live in a heap of their own and `window_nodes` maps a window to the
  address of its data. A message box runs a message loop inside its handler, so the
  handlers that wait for an answer are a stack, and every message may arrive while
  they wait; the callbacks run from the main loop only, with no box open.

  WM_CLOSE frees the data and takes the entry out of the map before it asks the user,
  and then reads `session_closed` through the pointer it looked up first. What that
  read of freed memory gives is up to the event (`stale`). So a window that WM_CLOSE
  reaches has its data read after the free whatever the user answers, and a cancelled
  close leaves a window with no entry, whose next message follows NULL.

  Proved: every state of a run is safe exactly when no WM_CLOSE reaches a window and no
  fatal error is acknowledged under FORCE_ON while a window is left
  (`closing_safe_iff`).

  Not here: the fonts, menus and titles that the handlers also touch, and the sending
  of WM_KILLFOCUS by DestroyWindow (its handler checks for NULL).
-/

import Putty.Windows.MapChain

namespace Putty.Windows.Closing

open Putty.Lib Putty.Windows.MapChain

abbrev HWND := Nat

structure WindowData where
  sessionClosed : Bool
  ldisc : Bool
  backend : Bool
  deriving DecidableEq, Repr

inductive CloseOnExit where
  | forceOn
  | forceOff
  | auto
  deriving DecidableEq, Repr

structure Conf where
  closeOnExit : CloseOnExit
  warnOnClose : Bool
  deriving DecidableEq, Repr

/-- What a handler that shows a message box does after it. -/
inductive Box where
  /-- WM_CLOSE, with what the window had when the message came. -/
  | confirm (hwnd : HWND) (before : Option WindowData)
  | fatal (hwnd : HWND)
  | exited
  deriving DecidableEq, Repr

inductive Obs where
  /-- A WindowData read after its free. -/
  | freedRead (hwnd : HWND)
  | cancelled (before after : Option WindowData)
  /-- PostQuitMessage, with the windows there are. -/
  | quit (left : List HWND)
  deriving DecidableEq, Repr

structure St where
  /-- The windows Windows knows. -/
  windows : List HWND
  map : MapChain.St HWND Nat
  data : Heap WindowData
  /-- The seats of the backends that live. -/
  backends : List HWND
  /-- `close_session` on these windows' TermWin. -/
  callbacks : List HWND
  /-- WM_CLOSE in the message queue. -/
  posted : List HWND
  boxes : List Box
  conf : Conf
  log : List Obs

def start (conf : Conf) : St := ⟨[], MapChain.init, Heap.empty, [], [], [], [], conf, []⟩

def push (s : St) (o : Obs) : St := { s with log := s.log ++ [o] }

/-! ## The handlers -/

def lookup (s : St) (hwnd : HWND) : Option Ptr := getMapchainValue s.map.heap s.map.windowNodes hwnd

/-- GET_WINDOW_DATA and the pointer followed: NULL is a crash. -/
def windowData (s : St) (hwnd : HWND) : Option (Nat × WindowData) := do
  let p ← lookup s hwnd
  let a ← p
  let d ← s.data.cell a
  some (a, d)

/-- WM_CREATE and the rest of NewWindow, up to the start of the session. -/
def newWindow (s : St) (hwnd : HWND) : Option St := do
  let present ← existInMapchian s.map.heap s.map.windowNodes hwnd
  if present then none
  else
    let map ← MapChain.step s.map (.add hwnd (some s.data.brk))
    some { s with
      windows := hwnd :: s.windows, map
      data := s.data.alloc ⟨false, true, true⟩
      backends := hwnd :: s.backends }

def closeSession (s : St) (hwnd : HWND) : Option St := do
  let (a, d) ← windowData s hwnd
  let data ← s.data.modify a fun _ => ⟨true, false, false⟩
  some { s with data, backends := if d.backend then s.backends.erase hwnd else s.backends }

/-- DestroyWindow, and WM_DESTROY in it. -/
def destroyWindow (s : St) (hwnd : HWND) : Option St :=
  if hwnd ∈ s.windows then do
    let s := { s with windows := s.windows.erase hwnd }
    let count ← getCountMapchain s.map.heap s.map.windowNodes
    some (if count = 0 then push s (.quit s.windows) else s)
  else some s

/-- `if (pData && pData->session_closed==false) close_session(..)`. -/
def closeOpenSession (s : St) (hwnd : HWND) : Option St := do
  match ← lookup s hwnd with
  | none => some s
  | some a =>
    let d ← s.data.cell a
    if d.sessionClosed = false then closeSession s hwnd else some s

/-- The part of WM_CLOSE under `if (window_nodes)`. -/
def dropEntry (s : St) (hwnd : HWND) : Option St := do
  let s ← closeOpenSession s hwnd
  -- deinit_fonts follows the pointer it looks up
  let (a, _) ← windowData s hwnd
  let data ← s.data.free a
  let map ← MapChain.step s.map (.remove hwnd)
  let count ← getCountMapchain map.heap map.windowNodes
  let s := { s with data, map }
  some (if count = 0 then push s (.quit s.windows) else s)

/-- `window_data->session_closed`, through the pointer of before. -/
def readClosed (s : St) (hwnd : HWND) (p : Ptr) (stale : Bool) : Option (Bool × St) := do
  let a ← p
  match s.data.cell a with
  | some d => some (d.sessionClosed, s)
  | none => some (stale, push s (.freedRead hwnd))

def wmClose (s : St) (hwnd : HWND) (stale : Bool) : Option St := do
  let window ← lookup s hwnd
  let before := window.bind s.data.cell
  let s ← if s.map.windowNodes ≠ none then dropEntry s hwnd else some s
  let (closed, s) ← readClosed s hwnd window stale
  if closed || !s.conf.warnOnClose then destroyWindow s hwnd
  else some { s with boxes := .confirm hwnd before :: s.boxes }

/-- `exitcode` is what the backend gives: INT_MAX when a fatal error closed the connection. -/
def notifyRemoteExit (s : St) (hwnd : HWND) (exitcode : Int) : Option St := do
  let (a, d) ← windowData s hwnd
  if d.sessionClosed then some s
  else if !d.backend then none
  else if exitcode < 0 then some s
  else if s.conf.closeOnExit = .forceOn ∨ s.conf.closeOnExit = .auto ∧ exitcode ≠ 2 ^ 31 - 1 then
    some { s with posted := s.posted ++ [hwnd] }
  else do
    let data ← s.data.modify a fun d => { d with sessionClosed := true }
    some { s with
      data
      callbacks := s.callbacks ++ [hwnd]
      boxes := if exitcode ≠ 2 ^ 31 - 1 then .exited :: s.boxes else s.boxes }

/-- IDM_RESTART: `start_backend` when there is no backend. -/
def restart (s : St) (hwnd : HWND) : Option St := do
  let (a, d) ← windowData s hwnd
  if d.backend then some s
  else
    let data ← s.data.modify a fun _ => ⟨false, true, true⟩
    some { s with data, backends := hwnd :: s.backends }

/-- What a handler does when its box has been answered. -/
def answered (s : St) (ok : Bool) : Box → Option St
  | .confirm hwnd before =>
    if ok then destroyWindow s hwnd
    else do
      let window ← lookup s hwnd
      some (push s (.cancelled before (window.bind s.data.cell)))
  | .fatal hwnd =>
    some (if s.conf.closeOnExit = .forceOn then push s (.quit s.windows)
      else { s with callbacks := s.callbacks ++ [hwnd] })
  | .exited => some s

inductive Ev where
  | newWindow (hwnd : HWND)
  /-- WM_CLOSE from the user or another program. -/
  | wmClose (hwnd : HWND) (stale : Bool)
  /-- The next posted WM_CLOSE. -/
  | posted (stale : Bool)
  | timer (hwnd : HWND)
  /-- Any other message whose handler reads the window's data. -/
  | message (hwnd : HWND)
  | restart (hwnd : HWND)
  /-- The user answers the box on top. -/
  | answer (ok : Bool)
  /-- A turn of `run_toplevel_callbacks`. -/
  | callback
  | remoteExit (hwnd : HWND) (exitcode : Int)
  | connectionFatal (hwnd : HWND)
  | reconfigure (conf : Conf)
  deriving DecidableEq, Repr

/-- A message goes to a window there is, a call of the seat comes from a live backend, and a
    new window gets an unused handle: other events do nothing. -/
def step (s : St) : Ev → Option St
  | .newWindow hwnd => if hwnd ∈ s.windows then some s else newWindow s hwnd
  | .wmClose hwnd stale => if hwnd ∈ s.windows then wmClose s hwnd stale else some s
  | .posted stale =>
    match s.posted with
    | [] => some s
    | hwnd :: rest =>
      let s := { s with posted := rest }
      if hwnd ∈ s.windows then wmClose s hwnd stale else some s
  | .timer hwnd => if hwnd ∈ s.windows then (windowData s hwnd).map fun _ => s else some s
  | .message hwnd => if hwnd ∈ s.windows then (windowData s hwnd).map fun _ => s else some s
  | .restart hwnd => if hwnd ∈ s.windows then restart s hwnd else some s
  | .answer ok =>
    match s.boxes with
    | [] => some s
    | box :: rest => answered { s with boxes := rest } ok box
  | .callback =>
    match s.boxes, s.callbacks with
    | [], hwnd :: rest => closeSession { s with callbacks := rest } hwnd
    | _, _ => some s
  | .remoteExit hwnd exitcode => if hwnd ∈ s.backends then notifyRemoteExit s hwnd exitcode else some s
  | .connectionFatal hwnd => some (if hwnd ∈ s.backends then { s with boxes := .fatal hwnd :: s.boxes } else s)
  | .reconfigure conf => some { s with conf }

/-! ## What must hold -/

def Obs.Ok : Obs → Prop
  | .freedRead _ => False
  | .cancelled before after => before = after
  | .quit left => left = []

/-- No data was read after its free, every cancelled close kept the window's entry and
    session, every quit was posted with no window left. -/
def Safe (s : St) : Prop := ∀ o ∈ s.log, o.Ok

/-- WM_CLOSE does not reach a window, and no fatal error is acknowledged under FORCE_ON
    with a window left. -/
def Allowed (s : St) : Ev → Prop
  | .wmClose hwnd _ => hwnd ∉ s.windows
  | .posted _ => ∀ hwnd ∈ s.posted.head?, hwnd ∉ s.windows
  | .answer _ => s.conf.closeOnExit = .forceOn → s.windows ≠ [] → ∀ hwnd, s.boxes.head? ≠ some (.fatal hwnd)
  | _ => True

/-! ## Runs without a WM_CLOSE -/

structure Inv (s : St) : Prop where
  /-- The map holds the windows there are, each with data that was not freed. -/
  entries : ∃ m xs, Rep m s.map xs ∧ (∀ hwnd, hwnd ∈ m ↔ hwnd ∈ s.windows) ∧
    ∀ hwnd p, m.lookup hwnd = some p → ∃ a d, p = some a ∧ s.data.cell a = some d
  session : ∀ a d, s.data.cell a = some d → d.sessionClosed = false → d.backend = true
  backends : ∀ hwnd ∈ s.backends, hwnd ∈ s.windows
  callbacks : ∀ hwnd ∈ s.callbacks, hwnd ∈ s.windows
  boxes : ∀ box ∈ s.boxes, box = .exited ∨ ∃ hwnd, box = .fatal hwnd ∧ hwnd ∈ s.windows
  log : s.log = []

theorem Inv.safe {s : St} (h : Inv s) : Safe s := by
  intro o ho
  rw [h.log] at ho
  cases ho

theorem start_inv (conf : Conf) : Inv (start conf) := by
  refine ⟨⟨∅, [], ⟨⟨rfl, by simp⟩, by simp [keysOf], fun _ => rfl⟩, ?_, ?_⟩, ?_, ?_, ?_, ?_, rfl⟩
  · intro hwnd
    simp [start, Finmap.notMem_empty]
  · intro hwnd p h
    simp [Finmap.lookup_empty] at h
  · intro a d h
    cases h
  · intro hwnd h
    cases h
  · intro hwnd h
    cases h
  · intro box h
    cases h

/-- A window there is has its data. -/
theorem Inv.entry {s : St} (h : Inv s) {hwnd : HWND} (hw : hwnd ∈ s.windows) :
    ∃ a d, lookup s hwnd = some (some a) ∧ s.data.cell a = some d := by
  obtain ⟨m, xs, hr, hmem, hlive⟩ := h.entries
  obtain ⟨p, hp⟩ := Finmap.mem_iff.mp ((hmem hwnd).mpr hw)
  obtain ⟨a, d, rfl, hd⟩ := hlive hwnd p hp
  refine ⟨a, d, ?_, hd⟩
  show getMapchainValue s.map.heap s.map.windowNodes hwnd = some (some a)
  rw [hr.agrees.1 hwnd, hp]; rfl

theorem windowData_eq {s : St} {hwnd : HWND} {a : Nat} {d : WindowData} (hl : lookup s hwnd = some (some a))
    (hd : s.data.cell a = some d) : windowData s hwnd = some (a, d) := by
  simp [windowData, hl, hd]

/-- A write to live data keeps every entry live. -/
theorem Inv.write {s : St} (h : Inv s) {a : Nat} {d : WindowData} (hd : s.data.cell a = some d) (f : WindowData → WindowData)
    (hf : (f d).sessionClosed = false → (f d).backend = true) :
    ∃ data, s.data.modify a f = some data ∧ Inv { s with data } := by
  have hlt := Heap.lt_brk hd
  refine ⟨s.data.put a (some (f d)), Heap.modify_live f hd, ?_, ?_, h.backends, h.callbacks, h.boxes, h.log⟩
  · obtain ⟨m, xs, hr, hmem, hlive⟩ := h.entries
    refine ⟨m, xs, hr, hmem, ?_⟩
    intro hwnd p hp
    obtain ⟨b, e, rfl, he⟩ := hlive hwnd p hp
    by_cases hb : b = a
    · subst hb
      exact ⟨b, f d, rfl, Heap.put_same hlt _⟩
    · exact ⟨b, e, rfl, by rw [Heap.put_ne _ _ hb]; exact he⟩
  · intro b e he
    by_cases hb : b = a
    · subst hb
      rw [Heap.put_same hlt] at he
      cases he
      exact hf
    · rw [Heap.put_ne _ _ hb] at he
      exact h.session b e he

theorem newWindow_inv {s : St} (h : Inv s) {hwnd : HWND} (hw : hwnd ∉ s.windows) : ∃ t, newWindow s hwnd = some t ∧ Inv t := by
  obtain ⟨m, xs, hr, hmem, hlive⟩ := h.entries
  have habs : hwnd ∉ m := fun hm => hw ((hmem hwnd).mp hm)
  obtain ⟨map, ys, hadd, hr'⟩ := step_add hr hwnd (some s.data.brk)
  have hex := hr.agrees.2.1 hwnd
  refine ⟨{ s with
    windows := hwnd :: s.windows, map
    data := s.data.alloc ⟨false, true, true⟩
    backends := hwnd :: s.backends }, ?_, ⟨_, ys, hr', ?_, ?_⟩, ?_, ?_, ?_, ?_, h.log⟩
  · simp [newWindow, hex, habs, hadd]
  · intro k
    rw [Finmap.mem_insert, List.mem_cons, hmem k]
  · intro k p hp
    by_cases hk : k = hwnd
    · subst hk
      rw [Finmap.lookup_insert] at hp
      cases hp
      exact ⟨s.data.brk, ⟨false, true, true⟩, rfl, Heap.alloc_same _ _⟩
    · rw [Finmap.lookup_insert_of_ne _ hk] at hp
      obtain ⟨a, d, rfl, hd⟩ := hlive k p hp
      exact ⟨a, d, rfl, Heap.alloc_live _ hd⟩
  · intro a d hd
    by_cases ha : a = s.data.brk
    · subst ha
      have hd : some (WindowData.mk false true true) = some d := by rw [← hd]; exact (Heap.alloc_same _ _).symm
      cases hd
      exact fun _ => rfl
    · exact h.session a d (by rw [← hd]; exact (Heap.alloc_ne _ _ ha).symm)
  · intro k hk
    rcases List.mem_cons.mp hk with rfl | hk
    · exact List.mem_cons_self
    · exact List.mem_cons_of_mem _ (h.backends k hk)
  · intro k hk
    exact List.mem_cons_of_mem _ (h.callbacks k hk)
  · intro box hb
    rcases h.boxes box hb with hb | ⟨k, hb, hk⟩
    · exact .inl hb
    · exact .inr ⟨k, hb, List.mem_cons_of_mem _ hk⟩

theorem closeSession_inv {s : St} (h : Inv s) {hwnd : HWND} (hw : hwnd ∈ s.windows) :
    ∃ t, closeSession s hwnd = some t ∧ Inv t := by
  obtain ⟨a, d, hl, hd⟩ := h.entry hw
  obtain ⟨data, hmod, h'⟩ := h.write hd (fun _ => ⟨true, false, false⟩) (fun e => by cases e)
  refine ⟨{ s with data, backends := if d.backend then s.backends.erase hwnd else s.backends }, ?_,
    h'.entries, h'.session, ?_, h'.callbacks, h'.boxes, h'.log⟩
  · simp [closeSession, windowData_eq hl hd, hmod]
  · intro k hk
    by_cases hb : d.backend = true
    · rw [if_pos hb] at hk
      exact h.backends k (List.mem_of_mem_erase hk)
    · rw [if_neg hb] at hk
      exact h.backends k hk

theorem restart_inv {s : St} (h : Inv s) {hwnd : HWND} (hw : hwnd ∈ s.windows) : ∃ t, restart s hwnd = some t ∧ Inv t := by
  obtain ⟨a, d, hl, hd⟩ := h.entry hw
  unfold restart
  rw [windowData_eq hl hd]
  by_cases hb : d.backend = true
  · exact ⟨s, by simp [hb], h⟩
  · obtain ⟨data, hmod, h'⟩ := h.write hd (fun _ => ⟨false, true, true⟩) (fun _ => rfl)
    refine ⟨{ s with data, backends := hwnd :: s.backends }, by simp [hb, hmod], h'.entries, h'.session, ?_,
      h'.callbacks, h'.boxes, h'.log⟩
    intro k hk
    rcases List.mem_cons.mp hk with rfl | hk
    · exact hw
    · exact h.backends k hk

theorem notifyRemoteExit_inv {s : St} (h : Inv s) {hwnd : HWND} (hw : hwnd ∈ s.windows) (exitcode : Int) :
    ∃ t, notifyRemoteExit s hwnd exitcode = some t ∧ Inv t := by
  obtain ⟨a, d, hl, hd⟩ := h.entry hw
  unfold notifyRemoteExit
  simp only [windowData_eq hl hd, Option.bind_eq_bind, Option.bind_some]
  by_cases hc : d.sessionClosed = true
  · exact ⟨s, if_pos hc, h⟩
  have hb : d.backend = true := h.session a d hd (by simpa using hc)
  rw [if_neg hc, if_neg (by simp [hb])]
  by_cases hneg : exitcode < 0
  · exact ⟨s, if_pos hneg, h⟩
  rw [if_neg hneg]
  split
  · exact ⟨_, rfl, h.entries, h.session, h.backends, h.callbacks, h.boxes, h.log⟩
  · obtain ⟨data, hmod, h'⟩ := h.write hd (fun d => { d with sessionClosed := true }) (fun e => by cases e)
    rw [hmod, Option.bind_some]
    refine ⟨_, rfl, h'.entries, h'.session, h'.backends, ?_, ?_, h'.log⟩
    · intro k hk
      rcases List.mem_append.mp hk with hk | hk
      · exact h.callbacks k hk
      · rw [List.mem_singleton.mp hk]; exact hw
    · intro box hbox
      dsimp only at hbox
      split at hbox
      · rcases List.mem_cons.mp hbox with rfl | hbox
        · exact .inl rfl
        · exact h.boxes box hbox
      · exact h.boxes box hbox

theorem answered_inv {s : St} (h : Inv s) {box : Box} {rest : List Box} (hs : s.boxes = box :: rest) (ok : Bool)
    (hok : Allowed s (.answer ok)) : ∃ t, answered { s with boxes := rest } ok box = some t ∧ Inv t := by
  have hrest : ∀ b ∈ rest, b = .exited ∨ ∃ hwnd, b = .fatal hwnd ∧ hwnd ∈ s.windows :=
    fun b hb => h.boxes b (by rw [hs]; exact List.mem_cons_of_mem _ hb)
  rcases h.boxes box (by rw [hs]; exact List.mem_cons_self) with rfl | ⟨hwnd, rfl, hw⟩
  · exact ⟨_, rfl, h.entries, h.session, h.backends, h.callbacks, hrest, h.log⟩
  · have hforce : s.conf.closeOnExit ≠ .forceOn := fun hf =>
      hok hf (List.ne_nil_of_mem hw) hwnd (by rw [hs]; rfl)
    refine ⟨_, congrArg some (if_neg hforce), h.entries, h.session, h.backends, ?_, hrest, h.log⟩
    intro k hk
    rcases List.mem_append.mp hk with hk | hk
    · exact h.callbacks k hk
    · rw [List.mem_singleton.mp hk]; exact hw

theorem step_inv {s : St} {e : Ev} (h : Inv s) (hok : Allowed s e) : ∃ t, step s e = some t ∧ Inv t := by
  have hread : ∀ hwnd, ∃ t, (if hwnd ∈ s.windows then (windowData s hwnd).map fun _ => s else some s) = some t ∧ Inv t := by
    intro hwnd
    by_cases hw : hwnd ∈ s.windows
    · obtain ⟨a, d, hl, hd⟩ := h.entry hw
      exact ⟨s, by rw [if_pos hw, windowData_eq hl hd]; rfl, h⟩
    · exact ⟨s, if_neg hw, h⟩
  cases e with
  | newWindow hwnd =>
    show ∃ t, (if hwnd ∈ s.windows then some s else newWindow s hwnd) = some t ∧ Inv t
    by_cases hw : hwnd ∈ s.windows
    · exact ⟨s, if_pos hw, h⟩
    · rw [if_neg hw]; exact newWindow_inv h hw
  | wmClose hwnd stale => exact ⟨s, if_neg hok, h⟩
  | posted stale =>
    unfold step
    cases hp : s.posted with
    | nil => exact ⟨s, rfl, h⟩
    | cons hwnd rest =>
      have hw : hwnd ∉ s.windows := hok hwnd (by rw [hp]; rfl)
      exact ⟨_, if_neg hw, h.entries, h.session, h.backends, h.callbacks, h.boxes, h.log⟩
  | timer hwnd => exact hread hwnd
  | message hwnd => exact hread hwnd
  | restart hwnd =>
    show ∃ t, (if hwnd ∈ s.windows then restart s hwnd else some s) = some t ∧ Inv t
    by_cases hw : hwnd ∈ s.windows
    · rw [if_pos hw]; exact restart_inv h hw
    · exact ⟨s, if_neg hw, h⟩
  | answer ok =>
    unfold step
    cases hs : s.boxes with
    | nil => exact ⟨s, rfl, h⟩
    | cons box rest => exact answered_inv h hs ok hok
  | callback =>
    unfold step
    cases hb : s.boxes with
    | cons box rest => exact ⟨s, rfl, h⟩
    | nil =>
      cases hc : s.callbacks with
      | nil => exact ⟨s, rfl, h⟩
      | cons hwnd rest =>
        refine closeSession_inv (s := { s with callbacks := rest, boxes := [] })
          ⟨h.entries, h.session, h.backends, ?_, fun box hbox => (by cases hbox), h.log⟩ ?_
        · intro k hk
          exact h.callbacks k (by rw [hc]; exact List.mem_cons_of_mem _ hk)
        · exact h.callbacks hwnd (by rw [hc]; exact List.mem_cons_self)
  | remoteExit hwnd exitcode =>
    show ∃ t, (if hwnd ∈ s.backends then notifyRemoteExit s hwnd exitcode else some s) = some t ∧ Inv t
    by_cases hb : hwnd ∈ s.backends
    · rw [if_pos hb]; exact notifyRemoteExit_inv h (h.backends hwnd hb) exitcode
    · exact ⟨s, if_neg hb, h⟩
  | connectionFatal hwnd =>
    by_cases hb : hwnd ∈ s.backends
    · refine ⟨_, congrArg some (if_pos hb), h.entries, h.session, h.backends, h.callbacks, ?_, h.log⟩
      intro box hbox
      rcases List.mem_cons.mp hbox with rfl | hbox
      · exact .inr ⟨hwnd, rfl, h.backends hwnd hb⟩
      · exact h.boxes box hbox
    · exact ⟨s, congrArg some (if_neg hb), h⟩
  | reconfigure conf => exact ⟨_, rfl, h.entries, h.session, h.backends, h.callbacks, h.boxes, h.log⟩

/-! ## A WM_CLOSE that reaches a window -/

theorem destroyWindow_log {s t : St} {hwnd : HWND} (h : destroyWindow s hwnd = some t) {o : Obs} (ho : o ∈ s.log) :
    o ∈ t.log := by
  unfold destroyWindow at h
  split at h
  · obtain ⟨count, -, h⟩ := Option.bind_eq_some_iff.mp h
    cases h
    split
    · exact List.mem_append_left _ ho
    · exact ho
  · cases h; exact ho

theorem closeSession_map {s t : St} {hwnd : HWND} (h : closeSession s hwnd = some t) : t.map = s.map := by
  obtain ⟨⟨a, d⟩, -, h⟩ := Option.bind_eq_some_iff.mp h
  obtain ⟨data, -, h⟩ := Option.bind_eq_some_iff.mp h
  cases h; rfl

/-- The data whose entry goes is freed. -/
theorem dropEntry_frees {s t : St} {hwnd : HWND} {a : Nat} (hl : lookup s hwnd = some (some a)) (h : dropEntry s hwnd = some t) :
    t.data.cell a = none := by
  unfold dropEntry at h
  obtain ⟨s1, h1, h⟩ := Option.bind_eq_some_iff.mp h
  have hmap : s1.map = s.map := by
    simp only [closeOpenSession, hl, Option.bind_eq_bind, Option.bind_some] at h1
    obtain ⟨d, -, h1⟩ := Option.bind_eq_some_iff.mp h1
    split at h1
    · exact closeSession_map h1
    · cases h1; rfl
  have hl1 : lookup s1 hwnd = some (some a) := by unfold lookup; rw [hmap]; exact hl
  obtain ⟨⟨b, d⟩, hb, h⟩ := Option.bind_eq_some_iff.mp h
  simp only [windowData, hl1, Option.bind_eq_bind, Option.bind_some] at hb
  obtain ⟨d', hd, hb⟩ := Option.bind_eq_some_iff.mp hb
  cases hb
  obtain ⟨data, hdata, h⟩ := Option.bind_eq_some_iff.mp h
  rw [Heap.free_live hd] at hdata
  cases hdata
  obtain ⟨map, -, h⟩ := Option.bind_eq_some_iff.mp h
  obtain ⟨count, -, h⟩ := Option.bind_eq_some_iff.mp h
  cases h
  split <;> exact Heap.put_same (Heap.lt_brk hd) none

/-- Whatever the user answers, the data is read after its free. -/
theorem wmClose_reads_freed {s t : St} (hi : Inv s) {hwnd : HWND} (hw : hwnd ∈ s.windows) {stale : Bool}
    (h : wmClose s hwnd stale = some t) : .freedRead hwnd ∈ t.log := by
  obtain ⟨a, d, hl, -⟩ := hi.entry hw
  have hnodes : s.map.windowNodes ≠ none := by
    intro h0
    have : lookup s hwnd = some none := by unfold lookup; rw [h0]; rfl
    rw [hl] at this
    cases this
  unfold wmClose at h
  rw [hl] at h
  simp only [Option.bind_eq_bind, Option.bind_some] at h
  rw [if_pos hnodes] at h
  obtain ⟨s1, h1, h⟩ := Option.bind_eq_some_iff.mp h
  have hfreed := dropEntry_frees hl h1
  simp only [readClosed, hfreed, Option.bind_eq_bind, Option.bind_some] at h
  have hmem : Obs.freedRead hwnd ∈ (push s1 (.freedRead hwnd)).log := List.mem_append_right _ (List.mem_singleton.mpr rfl)
  split at h
  · exact destroyWindow_log h hmem
  · cases h; exact hmem

theorem step_breaks {s t : St} {e : Ev} (h : Inv s) (hno : ¬ Allowed s e) (hs : step s e = some t) : ¬ Safe t := by
  intro hsafe
  cases e with
  | wmClose hwnd stale =>
    have hw : hwnd ∈ s.windows := not_not.mp hno
    have hs : wmClose s hwnd stale = some t := by rw [← hs]; exact (if_pos hw).symm
    exact hsafe _ (wmClose_reads_freed h hw hs)
  | posted stale =>
    unfold Allowed at hno
    push Not at hno
    obtain ⟨hwnd, hhead, hw⟩ := hno
    unfold step at hs
    cases hp : s.posted with
    | nil => rw [hp] at hhead; cases hhead
    | cons k rest =>
      rw [hp] at hhead hs
      cases hhead
      have h' : Inv { s with posted := rest } := ⟨h.entries, h.session, h.backends, h.callbacks, h.boxes, h.log⟩
      dsimp only at hs
      rw [if_pos hw] at hs
      exact hsafe _ (wmClose_reads_freed h' hw hs)
  | answer ok =>
    unfold Allowed at hno
    push Not at hno
    obtain ⟨hforce, hleft, hwnd, hhead⟩ := hno
    unfold step at hs
    cases hb : s.boxes with
    | nil => rw [hb] at hhead; cases hhead
    | cons box rest =>
      rw [hb] at hhead hs
      cases hhead
      have hs : some (push { s with boxes := rest } (.quit s.windows)) = some t := by
        rw [← hs]; exact (congrArg some (if_pos hforce)).symm
      cases hs
      exact hleft (hsafe (.quit s.windows) (List.mem_append_right _ (List.mem_singleton.mpr rfl)))
  | newWindow => exact hno trivial
  | timer => exact hno trivial
  | message => exact hno trivial
  | restart => exact hno trivial
  | callback => exact hno trivial
  | remoteExit => exact hno trivial
  | connectionFatal => exact hno trivial
  | reconfigure => exact hno trivial

/-! ## Runs -/

/-- Closing is safe in every state of a run exactly when the run closes nothing. -/
theorem closing_safe_iff (conf : Conf) (evs : List Ev) :
    Always step (fun _ s => Safe s) (start conf) evs ↔ Along step Allowed (start conf) evs := by
  refine always_iff_along (I := fun _ s => Inv s) (start_inv conf) (fun _ _ h => h.safe) ?_ ?_ evs
  · intro _ s e h hok
    exact step_inv h hok
  · intro _ s e t h hno hs
    exact step_breaks h hno hs

/-- One of two windows is closed and the user cancels: its data is read after the free, its entry is gone. -/
theorem cancelled_close_loses_the_window :
    ¬ ∀ conf evs, Always step (fun _ s => Safe s) (start conf) evs := by
  intro h
  obtain ⟨s, hs, hsafe⟩ := h ⟨.auto, true⟩ [.newWindow 1, .newWindow 2, .wmClose 1 false, .answer false] _ (List.prefix_refl _)
  have hlog : (run step (start ⟨.auto, true⟩) [.newWindow 1, .newWindow 2, .wmClose 1 false, .answer false]).map (·.log) =
      some [.freedRead 1, .cancelled (some ⟨false, true, true⟩) none] := by decide
  rw [hs, Option.map_some, Option.some.injEq] at hlog
  exact hsafe (.freedRead 1) (by rw [hlog]; exact List.mem_cons_self)

end Putty.Windows.Closing
