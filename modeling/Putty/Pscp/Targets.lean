/-
  Putty.Pscp.Targets — where PSCP writes.

  Proved over every run of sink (`sink_confined`): whatever the server sends and the local
  file system answers, what is opened or created is the target or lies under it by names of
  single components, as long as each name that comes for a directory target leaves one when
  stripped, and so does the requested name where it replaces the server's; a copy that is
  not recursive makes no directory; a single file goes where it was asked to. A requested
  name of dots alone leads out of the target (`dots_lead_out_of_the_target`), and of a
  Windows name with two colons one is left (`two_colons_leave_one`).
-/

import Putty.Pscp.Sink

namespace Putty.Pscp

open Putty.Utils Putty.Scp

variable {σ τ : Type}

/-- Under a directory, by single components. -/
inductive Below (o : Opts) (root : List UInt8) : List UInt8 → Prop where
  | child (c : List UInt8) (h : Component o.platform c) : Below o root (inDirectory o root c)
  | deeper (dir c : List UInt8) (hdir : Below o root dir) (h : Component o.platform c) : Below o root (inDirectory o dir c)

/-- A name can be used: it is one component once stripped, and where the requested one
    replaces it, so is that. -/
structure NameOk (o : Opts) (name : List UInt8) (src : Option (List UInt8)) : Prop where
  given : ∀ c ∈ o.platform.separators, c ∉ stripslashes o.platform name true
  requested : ∀ f, src = some f → o.usingSftp = false → o.unsafeMode = false →
    stripslashes o.platform name true ≠ stripslashes o.platform f true → Component o.platform (stripslashes o.platform f true)

/-- What is done to the local file system is done to the target or below it. -/
structure Confined (o : Opts) (root : List UInt8) (src : Option (List UInt8)) (rootIsDir : Bool) (s : St σ τ) : Prop where
  paths : ∀ op ∈ s.log, op.path = root ∨ root ∈ s.dirs ∧ Below o root op.path
  directories : o.recursive = false → ∀ path, LocalOp.createDirectory path ∉ s.log
  leaf : o.recursive = false → o.usingSftp = false → o.unsafeMode = false → rootIsDir = true →
    ∀ f, src = some f → ∀ op ∈ s.log, op = .openNewFile (inDirectory o root (stripslashes o.platform f true))

section Program

variable (o : Opts) (peer : Peer σ) (loc : Local τ) (wcMatch : List UInt8 → List UInt8 → Bool)

/-! ## What the server's part leaves alone -/

/-- The local side of the state is as it was. -/
structure SameLocal (s t : St σ τ) : Prop where
  log : t.log = s.log
  dirs : t.dirs = s.dirs
  asked : t.asked = s.asked

theorem SameLocal.refl (s : St σ τ) : SameLocal s s := ⟨rfl, rfl, rfl⟩

theorem SameLocal.trans {s t u : St σ τ} (h : SameLocal s t) (h' : SameLocal t u) : SameLocal s u :=
  ⟨h'.log.trans h.log, h'.dirs.trans h.dirs, h'.asked.trans h.asked⟩

/-- A directory is handed out only in a recursive copy. -/
def Permitted (action : Option Action) : Prop :=
  ∀ name permissions size times, action = some (.entry .dir name permissions size times) → o.recursive = true

theorem directoryAction_spec {fuel : Nat} {s t : St σ τ} {fname : List UInt8} {attrs : FxpAttrs} {action : Option Action}
    (h : directoryAction o peer fuel s fname attrs = some (action, t)) : SameLocal s t ∧ Permitted o action := by
  unfold directoryAction at h
  by_cases hcomplain : (!o.recursive && s.wildcard.isNone) = true
  · rw [if_pos hcomplain] at h
    cases h
    refine ⟨SameLocal.refl s, fun name permissions size times ha => ?_⟩
    split at ha
    · cases ha
    · cases ha
  · rw [if_neg hcomplain] at h
    split at h
    · cases h
    · cases h
      exact ⟨⟨rfl, rfl, rfl⟩, fun _ _ _ _ ha => by cases ha⟩
    · split at h
      · cases h
      · split at h
        · cases h
        · split at h
          · cases h
            exact ⟨⟨rfl, rfl, rfl⟩, fun _ _ _ _ ha => by cases ha⟩
          · cases h
            refine ⟨⟨rfl, rfl, rfl⟩, fun name permissions size times ha => ?_⟩
            cases hw : s.wildcard with
            | none =>
              rw [hw, Option.isNone_none, Bool.and_true, Bool.not_eq_true', Bool.not_eq_false] at hcomplain
              exact hcomplain
            | some wildcard =>
              rw [hw] at ha
              cases ha

theorem identify_spec {fuel : Nat} {s t : St σ τ} {fname : List UInt8} {action : Option Action}
    (h : identify o peer fuel s fname = some (action, t)) : SameLocal s t ∧ Permitted o action := by
  unfold identify at h
  split at h
  · cases h
  · cases h
    exact ⟨⟨rfl, rfl, rfl⟩, fun _ _ _ _ ha => by cases ha⟩
  · split at h
    · cases h
      exact ⟨⟨rfl, rfl, rfl⟩, fun _ _ _ _ ha => by cases ha⟩
    · split at h
      · obtain ⟨hsame, hpermitted⟩ := directoryAction_spec o peer h
        exact ⟨⟨hsame.log, hsame.dirs, hsame.asked⟩, hpermitted⟩
      · cases h
        exact ⟨⟨rfl, rfl, rfl⟩, fun _ _ _ _ ha => by cases ha⟩

theorem sftpAction_spec {fuel : Nat} {s t : St σ τ} {action : Option Action}
    (h : sftpAction o peer wcMatch fuel s = some (action, t)) : SameLocal s t ∧ Permitted o action := by
  unfold sftpAction at h
  split at h
  · split at h
    · cases h
      exact ⟨SameLocal.refl s, fun _ _ _ _ ha => by cases ha⟩
    · obtain ⟨hsame, hpermitted⟩ := identify_spec o peer h
      exact ⟨⟨hsame.log, hsame.dirs, hsame.asked⟩, hpermitted⟩
  · split at h
    · cases h
      refine ⟨⟨rfl, rfl, rfl⟩, fun _ _ _ _ ha => ?_⟩
      split at ha
      · cases ha
      · cases ha
    · obtain ⟨hsame, hpermitted⟩ := identify_spec o peer h
      exact ⟨⟨hsame.log, hsame.dirs, hsame.asked⟩, hpermitted⟩

theorem scpAction_spec (fuel : Nat) : ∀ {s t : St σ τ} {times : Option (ULong × ULong)} {action : Option Action},
    scpAction o fuel s times = some (action, t) → SameLocal s t ∧ Permitted o action := by
  induction fuel with
  | zero =>
    intro s t times action h
    cases h
  | succ fuel ih =>
    intro s t times action h
    unfold scpAction at h
    split at h
    · cases h
      exact ⟨SameLocal.refl s, fun _ _ _ _ ha => by cases ha⟩
    · next ch input _ =>
      split at h
      · cases h
      · split at h
        · cases h
        · dsimp only at h
          split at h
          · obtain ⟨hsame, hpermitted⟩ := ih h
            exact ⟨⟨hsame.log, hsame.dirs, hsame.asked⟩, hpermitted⟩
          · split at h
            · cases h
              exact ⟨⟨rfl, rfl, rfl⟩, fun _ _ _ _ ha => by cases ha⟩
            · split at h
              · split at h
                · cases h
                · obtain ⟨hsame, hpermitted⟩ := ih h
                  exact ⟨⟨hsame.log, hsame.dirs, hsame.asked⟩, hpermitted⟩
              · split at h
                · next hletter =>
                  split at h
                  · cases h
                  · cases h
                    refine ⟨⟨rfl, rfl, rfl⟩, fun _ _ _ _ ha => ?_⟩
                    rcases hletter with hC | ⟨-, hrecursive⟩
                    · rw [if_pos hC] at ha
                      cases ha
                    · exact hrecursive
                · cases h

theorem getSinkAction_spec {fuel : Nat} {s t : St σ τ} {action : Option Action}
    (h : getSinkAction o peer wcMatch fuel s = some (action, t)) : SameLocal s t ∧ Permitted o action := by
  unfold getSinkAction at h
  split at h
  · exact sftpAction_spec o peer wcMatch h
  · obtain ⟨hsame, hpermitted⟩ := scpAction_spec o _ h
    exact ⟨⟨hsame.log, hsame.dirs, hsame.asked⟩, hpermitted⟩

theorem sendAck_same (s : St σ τ) : SameLocal s (sendAck o s) := by
  unfold sendAck
  split
  · exact SameLocal.refl s
  · exact ⟨rfl, rfl, rfl⟩

theorem recvFiledata_same {s t : St σ τ} {len : Nat} {data : List UInt8} (h : recvFiledata o peer s len = some (data, t)) :
    SameLocal s t := by
  unfold recvFiledata at h
  split at h
  · split at h
    · cases h
    · cases h
    · cases h
      exact ⟨rfl, rfl, rfl⟩
  · split at h
    · cases h
    · cases h
      exact ⟨rfl, rfl, rfl⟩

theorem receiveData_same (fuel : Nat) : ∀ {s t : St σ τ} {received size : UInt64} {wrerror w : Bool},
    receiveData o peer loc fuel s received size wrerror = some (w, t) → SameLocal s t := by
  induction fuel with
  | zero =>
    intro s t received size wrerror w h
    cases h
  | succ fuel ih =>
    intro s t received size wrerror w h
    unfold receiveData at h
    split at h
    · split at h
      · cases h
      · next data u hrecv =>
        have hu := recvFiledata_same o peer hrecv
        split at h
        · exact hu.trans (ih h)
        · have hrest := ih h
          exact hu.trans ⟨hrest.log, hrest.dirs, hrest.asked⟩
    · cases h
      exact SameLocal.refl s

theorem response_same {s t : St σ τ} (h : response s = some t) : SameLocal s t := by
  unfold response at h
  split at h
  · cases h
  · split at h
    · cases h
      exact ⟨rfl, rfl, rfl⟩
    · split at h
      · cases h
      · dsimp only at h
        split at h
        · cases h
          exact ⟨rfl, rfl, rfl⟩
        · split at h
          · cases h
          · cases h
            exact ⟨rfl, rfl, rfl⟩

theorem finishFilerecv_same {s t : St σ τ} (h : finishFilerecv o peer s = some t) : SameLocal s t := by
  unfold finishFilerecv at h
  split at h
  · obtain ⟨p, -, rfl⟩ := Option.map_eq_some_iff.mp h
    exact ⟨rfl, rfl, rfl⟩
  · have hsame := response_same h
    exact ⟨hsame.log, hsame.dirs, hsame.asked⟩

/-- Of the local file system's paths a file touches its own. -/
theorem receiveFile_spec (fuel : Nat) (s : St σ τ) (destfname : List UInt8) (permissions : ULong) (size : UInt64) :
    SameLocal { s with log := s.log ++ [.openNewFile destfname] } (receiveFile o peer loc fuel s destfname permissions size).2 := by
  unfold receiveFile
  dsimp only
  split
  · exact ⟨rfl, rfl, rfl⟩
  · split
    · exact ⟨rfl, rfl, rfl⟩
    · exact ⟨rfl, rfl, rfl⟩
    · next p _ =>
      have hack := sendAck_same o { s with
        peer := p, fs := (loc.openNewFile s.fs destfname permissions).2, log := s.log ++ [.openNewFile destfname] }
      split
      · exact ⟨rfl, rfl, rfl⟩
      · next t hdata =>
        have hsame := hack.trans (receiveData_same o peer loc fuel hdata)
        exact ⟨hsame.log, hsame.dirs, hsame.asked⟩
      · next t hdata =>
        have hsame := hack.trans (receiveData_same o peer loc fuel hdata)
        split
        · exact ⟨hsame.log, hsame.dirs, hsame.asked⟩
        · next u hfinish =>
          have hall := hsame.trans (finishFilerecv_same o peer hfinish)
          exact ⟨hall.log, hall.dirs, hall.asked⟩

/-! ## The turns -/

variable {root : List UInt8} {asked : Option (List UInt8)} {rootIsDir : Bool}

/-- What is known of a call of sink: where its target is, and that it is the only call of a
    copy that is not recursive. -/
structure FrameOk (root : List UInt8) (asked : Option (List UInt8)) (rootIsDir : Bool) (s : St σ τ) (targ : List UInt8)
    (src : Option (List UInt8)) (targisdir : Bool) : Prop where
  place : targ = root ∨ root ∈ s.dirs ∧ Below o root targ
  isdir : targisdir = true → targ ∈ s.dirs
  only : o.recursive = false → targ = root ∧ src = asked ∧ targisdir = rootIsDir

/-- What is remembered of the run only grows. -/
structure Grows (s t : St σ τ) : Prop where
  dirs : s.dirs ⊆ t.dirs
  asked : s.asked ⊆ t.asked

theorem Grows.refl (s : St σ τ) : Grows s s := ⟨List.Subset.refl _, List.Subset.refl _⟩

theorem Grows.trans {s t u : St σ τ} (h : Grows s t) (h' : Grows t u) : Grows s u :=
  ⟨List.Subset.trans h.dirs h'.dirs, List.Subset.trans h.asked h'.asked⟩

theorem SameLocal.grows {s t : St σ τ} (h : SameLocal s t) : Grows s t := by
  constructor
  · rw [h.dirs]
    exact List.Subset.refl _
  · rw [h.asked]
    exact List.Subset.refl _

theorem FrameOk.grow {o : Opts} {s t : St σ τ} {targ : List UInt8} {src : Option (List UInt8)} {targisdir : Bool}
    (h : FrameOk o root asked rootIsDir s targ src targisdir) (hg : Grows s t) :
    FrameOk o root asked rootIsDir t targ src targisdir :=
  ⟨h.place.imp_right fun hp => ⟨hg.dirs hp.1, hp.2⟩, fun hd => hg.dirs (h.isdir hd), h.only⟩

theorem Confined.same {o : Opts} {s t : St σ τ} (h : Confined o root asked rootIsDir s) (hlog : t.log = s.log)
    (hdirs : s.dirs ⊆ t.dirs) : Confined o root asked rootIsDir t := by
  refine ⟨fun op hop => ?_, fun hr path => ?_, fun hr hs hu hd f hf op hop => ?_⟩
  · rw [hlog] at hop
    exact (h.paths op hop).imp_right fun hp => ⟨hdirs hp.1, hp.2⟩
  · rw [hlog]
    exact h.directories hr path
  · rw [hlog] at hop
    exact h.leaf hr hs hu hd f hf op hop

/-- A name that can be used gives a single component. -/
theorem component_ok {o : Opts} {name : List UInt8} {src : Option (List UInt8)} (h : NameOk o name src) {c : List UInt8}
    (hc : component o src name = some c) : Component o.platform c := by
  unfold component at hc
  dsimp only at hc
  split at hc
  · cases hc
  · next hdots =>
    have hgiven : Component o.platform (stripslashes o.platform name true) :=
      ⟨h.given, Bool.eq_false_iff.mpr hdots⟩
    split at hc
    · cases hc
      exact hgiven
    · next f =>
      cases hc
      split
      · next hoverride =>
        exact h.requested f rfl (Bool.eq_false_iff.mpr hoverride.2.1) (Bool.eq_false_iff.mpr hoverride.2.2) hoverride.1
      · exact hgiven

/-- In a copy that may not choose its name it is the requested one. -/
theorem component_leaf {o : Opts} {name f c : List UInt8} (hsftp : o.usingSftp = false) (hmode : o.unsafeMode = false)
    (hc : component o (some f) name = some c) : c = stripslashes o.platform f true := by
  unfold component at hc
  dsimp only at hc
  split at hc
  · cases hc
  · cases hc
    split
    · rfl
    · next hsame =>
      rw [hsftp, hmode] at hsame
      by_contra hne
      exact hsame ⟨hne, Bool.false_ne_true, Bool.false_ne_true⟩

/-- A destination is the call's target or in it. -/
structure DestinationOk (root : List UInt8) (asked : Option (List UInt8)) (rootIsDir : Bool) (s : St σ τ)
    (destfname : List UInt8) : Prop where
  place : destfname = root ∨ root ∈ s.dirs ∧ Below o root destfname
  leaf : o.recursive = false → o.usingSftp = false → o.unsafeMode = false → rootIsDir = true →
    ∀ f, asked = some f → destfname = inDirectory o root (stripslashes o.platform f true)

theorem destination_grows (s : St σ τ) (targ : List UInt8) (src : Option (List UInt8)) (targisdir : Bool) (name : List UInt8) :
    (destination o s targ src targisdir name).2.log = s.log ∧ Grows s (destination o s targ src targisdir name).2 := by
  unfold destination
  split
  · exact ⟨rfl, List.Subset.refl s.dirs, List.subset_cons_self _ s.asked⟩
  · exact ⟨rfl, Grows.refl s⟩

theorem destination_ok {s : St σ τ} {targ name path : List UInt8} {src : Option (List UInt8)} {targisdir : Bool}
    (hframe : FrameOk o root asked rootIsDir s targ src targisdir)
    (hok : ∀ r ∈ (destination o s targ src targisdir name).2.asked, NameOk o r.1 r.2)
    (hpath : (destination o s targ src targisdir name).1 = some path) :
    DestinationOk o root asked rootIsDir (destination o s targ src targisdir name).2 path := by
  unfold destination at hok hpath ⊢
  by_cases hd : targisdir = true
  · rw [if_pos hd] at hok hpath ⊢
    obtain ⟨c, hc, rfl⟩ := Option.map_eq_some_iff.mp hpath
    have hcomponent := component_ok (hok _ List.mem_cons_self) hc
    constructor
    · right
      rcases hframe.place with hroot | ⟨hdir, hbelow⟩
      · have hisdir := hframe.isdir hd
        rw [hroot] at hisdir ⊢
        exact ⟨hisdir, .child c hcomponent⟩
      · exact ⟨hdir, .deeper targ c hbelow hcomponent⟩
    · intro hr hs hu _ f hf
      obtain ⟨htarg, hsrc, -⟩ := hframe.only hr
      rw [hsrc, hf] at hc
      rw [htarg, component_leaf hs hu hc]
  · rw [if_neg hd] at hpath ⊢
    cases hpath
    refine ⟨hframe.place, fun hr _ _ hrootdir => ?_⟩
    rw [(hframe.only hr).2.2] at hd
    exact absurd hrootdir hd

theorem fileType_spec (s : St σ τ) (path : List UInt8) :
    (fileType loc s path).2.log = s.log ∧ Grows s (fileType loc s path).2 ∧
      ((fileType loc s path).1 = .directory → path ∈ (fileType loc s path).2.dirs) := by
  unfold fileType
  dsimp only
  refine ⟨rfl, ⟨?_, List.Subset.refl _⟩, fun h => ?_⟩
  · split
    · exact List.subset_cons_self _ _
    · exact List.Subset.refl _
  · rw [if_pos h]
    exact List.mem_cons_self

theorem enterSink_grows (s : St σ τ) (targ : List UInt8) :
    (enterSink o loc s targ).2.log = s.log ∧ Grows s (enterSink o loc s targ).2 := by
  obtain ⟨hlog, hgrows, -⟩ := fileType_spec loc s targ
  have hack := sendAck_same o (fileType loc s targ).2
  unfold enterSink
  dsimp only
  split
  · exact ⟨hlog, hgrows⟩
  · exact ⟨hack.log.trans hlog, hgrows.trans hack.grows⟩

theorem enterSink_enter {s : St σ τ} {targ d : List UInt8} {isdir : Bool} (h : (enterSink o loc s targ).1 = .enter d isdir) :
    d = targ ∧ (isdir = true → d ∈ (enterSink o loc s targ).2.dirs) ∧
      isdir = decide ((loc.fileType s.fs targ).1 = .directory) := by
  obtain ⟨-, -, hdir⟩ := fileType_spec loc s targ
  have hack := sendAck_same o (fileType loc s targ).2
  unfold enterSink at h ⊢
  dsimp only at h ⊢
  split at h
  · cases h
  · next hnot =>
    cases h
    rw [if_neg hnot]
    exact ⟨rfl, fun h => hack.grows.dirs (hdir (of_decide_eq_true h)), rfl⟩

theorem makeDirectory_grows (s : St σ τ) (attr : FileType) (destfname : List UInt8) :
    Grows s (makeDirectory loc s attr destfname).2 := by
  unfold makeDirectory
  split
  · exact ⟨List.Subset.refl s.dirs, List.Subset.refl s.asked⟩
  · exact Grows.refl s

theorem receiveFile_grows (fuel : Nat) (s : St σ τ) (destfname : List UInt8) (permissions : ULong) (size : UInt64) :
    Grows s (receiveFile o peer loc fuel s destfname permissions size).2 := by
  have hspec := (receiveFile_spec o peer loc fuel s destfname permissions size).grows
  exact ⟨hspec.dirs, hspec.asked⟩

theorem entryTurn_grows (fuel : Nat) (s : St σ τ) (kind : Kind) (destfname : List UInt8) (permissions : ULong) (size : UInt64) :
    Grows s (entryTurn o peer loc fuel s kind destfname permissions size).2 := by
  obtain ⟨-, hgrows, -⟩ := fileType_spec loc s destfname
  unfold entryTurn
  dsimp only
  cases kind with
  | dir =>
    have hmade := makeDirectory_grows loc (fileType loc s destfname).2 (fileType loc s destfname).1 destfname
    dsimp only
    split
    · next t ht =>
      rw [ht] at hmade
      exact hgrows.trans hmade
    · next t ht =>
      rw [ht] at hmade
      exact (hgrows.trans hmade).trans (enterSink_grows o loc t destfname).2
  | file =>
    have hreceived := receiveFile_grows o peer loc fuel (fileType loc s destfname).2 destfname permissions size
    dsimp only
    split
    · next t ht =>
      rw [ht] at hreceived
      exact hgrows.trans hreceived
    · next t ht =>
      rw [ht] at hreceived
      exact hgrows.trans hreceived
    · next t ht =>
      rw [ht] at hreceived
      exact hgrows.trans hreceived

theorem makeDirectory_ok {s : St σ τ} (hc : Confined o root asked rootIsDir s) {destfname : List UInt8}
    (hd : DestinationOk o root asked rootIsDir s destfname) (hrecursive : o.recursive = true) (attr : FileType) :
    Confined o root asked rootIsDir (makeDirectory loc s attr destfname).2 := by
  unfold makeDirectory
  split
  · refine ⟨fun op hop => ?_, fun hr => ?_, fun hr => ?_⟩
    · rcases List.mem_append.mp hop with hop | hop
      · exact hc.paths op hop
      · rw [List.mem_singleton.mp hop]
        exact hd.place
    · rw [hrecursive] at hr
      cases hr
    · rw [hrecursive] at hr
      cases hr
  · exact hc

theorem receiveFile_ok {s : St σ τ} (hc : Confined o root asked rootIsDir s) {destfname : List UInt8}
    (hd : DestinationOk o root asked rootIsDir s destfname) (fuel : Nat) (permissions : ULong) (size : UInt64) :
    Confined o root asked rootIsDir (receiveFile o peer loc fuel s destfname permissions size).2 := by
  have hspec := receiveFile_spec o peer loc fuel s destfname permissions size
  have hopen : Confined o root asked rootIsDir { s with log := s.log ++ [.openNewFile destfname] } := by
    refine ⟨fun op hop => ?_, fun hr path hop => ?_, fun hr hs hu hdir f hf op hop => ?_⟩
    · rcases List.mem_append.mp hop with hop | hop
      · exact hc.paths op hop
      · rw [List.mem_singleton.mp hop]
        exact hd.place
    · rcases List.mem_append.mp hop with hop | hop
      · exact hc.directories hr path hop
      · cases List.mem_singleton.mp hop
    · rcases List.mem_append.mp hop with hop | hop
      · exact hc.leaf hr hs hu hdir f hf op hop
      · rw [List.mem_singleton.mp hop, hd.leaf hr hs hu hdir f hf]
  exact hopen.same hspec.log hspec.grows.dirs

/-- What a turn leaves, and what is known of the call it makes. -/
structure TurnOk (root : List UInt8) (asked : Option (List UInt8)) (rootIsDir : Bool) (r : Turn × St σ τ) : Prop where
  confined : Confined o root asked rootIsDir r.2
  entered : ∀ d isdir, r.1 = .enter d isdir → FrameOk o root asked rootIsDir r.2 d none isdir

theorem entryTurn_ok {s : St σ τ} (hc : Confined o root asked rootIsDir s) {destfname : List UInt8}
    (hd : DestinationOk o root asked rootIsDir s destfname) {kind : Kind} (hkind : kind = .dir → o.recursive = true)
    (fuel : Nat) (permissions : ULong) (size : UInt64) :
    TurnOk o root asked rootIsDir (entryTurn o peer loc fuel s kind destfname permissions size) := by
  obtain ⟨hlog, hgrows, -⟩ := fileType_spec loc s destfname
  have hc1 := hc.same hlog hgrows.dirs
  have hd1 : DestinationOk o root asked rootIsDir (fileType loc s destfname).2 destfname :=
    ⟨hd.place.imp_right fun hp => ⟨hgrows.dirs hp.1, hp.2⟩, hd.leaf⟩
  unfold entryTurn
  dsimp only
  cases kind with
  | dir =>
    have hrecursive := hkind rfl
    have hc2 := makeDirectory_ok o loc hc1 hd1 hrecursive (fileType loc s destfname).1
    have hg2 := makeDirectory_grows loc (fileType loc s destfname).2 (fileType loc s destfname).1 destfname
    dsimp only
    split
    · next t ht =>
      rw [ht] at hc2
      exact ⟨hc2, fun _ _ h => by cases h⟩
    · next t ht =>
      rw [ht] at hc2 hg2
      obtain ⟨hlog3, hg3⟩ := enterSink_grows o loc t destfname
      refine ⟨hc2.same hlog3 hg3.dirs, fun d isdir h => ?_⟩
      obtain ⟨rfl, hisdir, -⟩ := enterSink_enter o loc h
      refine ⟨hd1.place.imp_right fun hp => ⟨hg3.dirs (hg2.dirs hp.1), hp.2⟩, hisdir, fun hr => ?_⟩
      rw [hrecursive] at hr
      cases hr
  | file =>
    have hc2 := receiveFile_ok o peer loc hc1 hd1 fuel permissions size
    dsimp only
    split
    · next t ht =>
      rw [ht] at hc2
      exact ⟨hc2, fun _ _ h => by cases h⟩
    · next t ht =>
      rw [ht] at hc2
      exact ⟨hc2, fun _ _ h => by cases h⟩
    · next t ht =>
      rw [ht] at hc2
      exact ⟨hc2, fun _ _ h => by cases h⟩

theorem sinkTurn_grows (fuel : Nat) (s : St σ τ) (targ : List UInt8) (src : Option (List UInt8)) (targisdir : Bool) :
    Grows s (sinkTurn o peer loc wcMatch fuel s targ src targisdir).2 := by
  unfold sinkTurn
  split
  · exact Grows.refl s
  · next t ht => exact (getSinkAction_spec o peer wcMatch ht).1.grows
  · next t ht => exact (getSinkAction_spec o peer wcMatch ht).1.grows
  · next t ht => exact (getSinkAction_spec o peer wcMatch ht).1.grows
  · next kind name permissions size times t ht =>
    have hgrows := (getSinkAction_spec o peer wcMatch ht).1.grows
    have hdest := (destination_grows o t targ src targisdir name).2
    split
    · next u hu =>
      rw [hu] at hdest
      exact hgrows.trans hdest
    · next destfname u hu =>
      rw [hu] at hdest
      exact (hgrows.trans hdest).trans (entryTurn_grows o peer loc fuel u kind destfname permissions size)

theorem sinkTurn_ok {s : St σ τ} {targ : List UInt8} {src : Option (List UInt8)} {targisdir : Bool}
    (hc : Confined o root asked rootIsDir s) (hframe : FrameOk o root asked rootIsDir s targ src targisdir) (fuel : Nat)
    (hok : ∀ r ∈ (sinkTurn o peer loc wcMatch fuel s targ src targisdir).2.asked, NameOk o r.1 r.2) :
    TurnOk o root asked rootIsDir (sinkTurn o peer loc wcMatch fuel s targ src targisdir) := by
  unfold sinkTurn at hok ⊢
  split
  · exact ⟨hc, fun _ _ h => by cases h⟩
  · next t ht =>
    have hsame := (getSinkAction_spec o peer wcMatch ht).1
    exact ⟨hc.same hsame.log hsame.grows.dirs, fun _ _ h => by cases h⟩
  · next t ht =>
    have hsame := (getSinkAction_spec o peer wcMatch ht).1
    exact ⟨hc.same hsame.log hsame.grows.dirs, fun _ _ h => by cases h⟩
  · next t ht =>
    have hsame := (getSinkAction_spec o peer wcMatch ht).1
    exact ⟨hc.same hsame.log hsame.grows.dirs, fun _ _ h => by cases h⟩
  · next kind name permissions size times t ht =>
    obtain ⟨hsame, hpermitted⟩ := getSinkAction_spec o peer wcMatch ht
    have hc1 := hc.same hsame.log hsame.grows.dirs
    have hframe1 := hframe.grow hsame.grows
    obtain ⟨hlog, hdest⟩ := destination_grows o t targ src targisdir name
    rw [ht] at hok
    dsimp only at hok
    split
    · next u hu =>
      rw [hu] at hlog hdest
      exact ⟨hc1.same hlog hdest.dirs, fun _ _ h => by cases h⟩
    · next destfname u hu =>
      rw [hu] at hlog hdest hok
      dsimp only at hok
      have hentry := entryTurn_grows o peer loc fuel u kind destfname permissions size
      have hd : (∀ r ∈ (destination o t targ src targisdir name).2.asked, NameOk o r.1 r.2) →
          (destination o t targ src targisdir name).1 = some destfname →
          DestinationOk o root asked rootIsDir (destination o t targ src targisdir name).2 destfname :=
        destination_ok o hframe1
      rw [hu] at hd
      refine entryTurn_ok o peer loc (hc1.same hlog hdest.dirs) (hd (fun r hr => hok r (hentry.asked hr)) rfl)
        (fun hkind => ?_) fuel permissions size
      rw [hkind] at hpermitted
      exact hpermitted name permissions size times rfl

/-! ## Whole runs -/

theorem grows_buf (s : St σ τ) (buf : Strbuf) : Grows s { s with buf } := ⟨List.Subset.refl _, List.Subset.refl _⟩

theorem Confined.withBuf {o : Opts} {s : St σ τ} (h : Confined o root asked rootIsDir s) (buf : Strbuf) :
    Confined o root asked rootIsDir { s with buf } :=
  h.same rfl (List.Subset.refl _)

theorem sinkLoop_grows (fuel : Nat) : ∀ (s : St σ τ) (targ : List UInt8) (src : Option (List UInt8)) (targisdir : Bool),
    Grows s (sinkLoop o peer loc wcMatch fuel s targ src targisdir).2 := by
  induction fuel with
  | zero => exact fun s _ _ _ => Grows.refl s
  | succ fuel ih =>
    intro s targ src targisdir
    have hturn := sinkTurn_grows o peer loc wcMatch fuel s targ src targisdir
    unfold sinkLoop
    split
    · next t ht =>
      rw [ht] at hturn
      exact hturn
    · next t ht =>
      rw [ht] at hturn
      exact hturn.trans (ih t targ src targisdir)
    · next d isdir t ht =>
      rw [ht] at hturn
      have hcall := hturn.trans ((grows_buf t .new).trans (ih { t with buf := .new } d none isdir))
      split
      · next u hu =>
        rw [hu] at hcall
        exact (hcall.trans (grows_buf u t.buf)).trans (ih { u with buf := t.buf } targ src targisdir)
      · exact hcall

theorem sinkLoop_ok (fuel : Nat) : ∀ {s : St σ τ} {targ : List UInt8} {src : Option (List UInt8)} {targisdir : Bool},
    Confined o root asked rootIsDir s → FrameOk o root asked rootIsDir s targ src targisdir →
    (∀ r ∈ (sinkLoop o peer loc wcMatch fuel s targ src targisdir).2.asked, NameOk o r.1 r.2) →
    Confined o root asked rootIsDir (sinkLoop o peer loc wcMatch fuel s targ src targisdir).2 := by
  induction fuel with
  | zero => exact fun hc _ _ => hc
  | succ fuel ih =>
    intro s targ src targisdir hc hframe hok
    have hgrows := sinkTurn_grows o peer loc wcMatch fuel s targ src targisdir
    have hturn := sinkTurn_ok o peer loc wcMatch hc hframe fuel
    unfold sinkLoop at hok ⊢
    split
    · next t ht =>
      rw [ht] at hok hturn
      exact (hturn hok).confined
    · next t ht =>
      rw [ht] at hok hturn hgrows
      dsimp only at hok hturn
      have hlater := sinkLoop_grows o peer loc wcMatch fuel t targ src targisdir
      have hnow := hturn fun r hr => hok r (hlater.asked hr)
      exact ih hnow.confined (hframe.grow hgrows) hok
    · next d isdir t ht =>
      rw [ht] at hok hturn hgrows
      dsimp only at hok hturn
      have hcall := (grows_buf t .new).trans (sinkLoop_grows o peer loc wcMatch fuel { t with buf := .new } d none isdir)
      have hinner := fun hnow : TurnOk o root asked rootIsDir (.enter d isdir, t) =>
        ih (hnow.confined.withBuf .new) ((hnow.entered d isdir rfl).grow (grows_buf t .new))
      rcases hu : sinkLoop o peer loc wcMatch fuel { t with buf := .new } d none isdir with ⟨outcome, u⟩
      rw [hu] at hok hcall hinner
      cases outcome with
      | returned =>
        dsimp only at hok ⊢
        have hlater := sinkLoop_grows o peer loc wcMatch fuel { u with buf := t.buf } targ src targisdir
        have hnow := hturn fun r hr => hok r (hlater.asked (hcall.asked hr))
        have hu' := hinner hnow fun r hr => hok r (hlater.asked hr)
        exact ih (hu'.withBuf t.buf) (((hframe.grow hgrows).grow hcall).grow (grows_buf u t.buf)) hok
      | exited => exact hinner (hturn fun r hr => hok r (hcall.asked hr)) hok
      | running => exact hinner (hturn fun r hr => hok r (hcall.asked hr)) hok

/-- A run of sink from its start does nothing outside its target. -/
theorem sink_confined (fuel : Nat) (s : St σ τ) (targ : List UInt8) (src : Option (List UInt8)) (hlog : s.log = [])
    (hok : ∀ r ∈ (sink o peer loc wcMatch fuel s targ src).2.asked, NameOk o r.1 r.2) :
    Confined o targ src ((loc.fileType s.fs targ).1 = .directory) (sink o peer loc wcMatch fuel s targ src).2 := by
  have hnone : ∀ t : St σ τ, t.log = [] → Confined o targ src ((loc.fileType s.fs targ).1 = .directory) t := by
    intro t ht
    refine ⟨fun op hop => ?_, fun _ path hop => ?_, fun _ _ _ _ f _ op hop => ?_⟩
    all_goals
      rw [ht] at hop
      cases hop
  obtain ⟨hsame, -⟩ := enterSink_grows o loc { s with buf := .new } targ
  have hc := hnone (enterSink o loc { s with buf := .new } targ).2 (hsame.trans hlog)
  unfold sink at hok ⊢
  split
  · next d isdir t ht =>
    have henter : (enterSink o loc { s with buf := .new } targ).1 = .enter d isdir → _ := enterSink_enter o loc
    rw [ht] at hc hok henter
    obtain ⟨rfl, hisdir, hroot⟩ := henter rfl
    exact sinkLoop_ok o peer loc wcMatch fuel hc ⟨.inl rfl, hisdir, fun _ => ⟨rfl, rfl, hroot⟩⟩ hok
  · next t ht =>
    rw [ht] at hc
    exact hc
  · next t ht =>
    rw [ht] at hc
    exact hc

end Program

/-! ## A run that is confined, and two that are not -/

/-- A local file system with some directories in it, where all that is tried succeeds. -/
def withDirectories (dirs : List (List UInt8)) : Local Unit where
  fileType _ path := (if dirs.contains path then .directory else .nonexistent, ())
  createDirectory _ _ := (true, ())
  openNewFile _ _ _ := (true, ())
  writeToFile _ _ := (true, ())

/-- A server that speaks SCP only. -/
def noSftp : Peer Unit where
  stat _ _ := none
  opendir _ _ := none
  readdir _ := none
  close _ := none
  openRead _ _ := none
  recvFiledata _ _ := none
  finishFilerecv _ := none

def start (input : List UInt8) : St Unit Unit where
  peer := ()
  fs := ()
  input := input
  sent := []
  dirstack := []
  remotepath := []
  currentname := []
  wildcard := none
  doneThisTarget := false
  buf := .new
  log := []
  dirs := []
  asked := []

def scp (platform : Platform) (recursive : Bool) : Opts := ⟨platform, false, recursive, false, false, false⟩

def oneDirectory : Local Unit := withDirectories [text "dir"]

/-- `pscp host:f dir`, and a file called f. -/
def oneFile : St Unit Unit := start (text "C0644 1 f\nA" ++ [0])

theorem one_file_asked : (sink (scp .unix false) noSftp oneDirectory (fun _ _ => false) 8 oneFile (text "dir")
    (some (text "f"))).2.asked = [(text "f", some (text "f"))] := by
  decide +kernel

theorem one_file_is_confined : Confined (scp .unix false) (text "dir") (some (text "f")) true
    (sink (scp .unix false) noSftp oneDirectory (fun _ _ => false) 8 oneFile (text "dir") (some (text "f"))).2 := by
  refine sink_confined (scp .unix false) noSftp oneDirectory (fun _ _ => false) 8 oneFile (text "dir") (some (text "f")) rfl ?_
  rw [one_file_asked]
  intro r hr
  rw [List.mem_singleton.mp hr]
  exact ⟨unix_strips _ _, fun f hf _ _ hne => by cases hf; exact absurd rfl hne⟩

/-- The last component of a path below a directory, and what it is in. -/
theorem below_unix {recursive : Bool} {root path : List UInt8} (hroot : root ≠ []) (h : Below (scp .unix recursive) root path) :
    ∃ dir c, path = dir ++ 47 :: c ∧ Component .unix c ∧
      (dir = root ∨ dir ++ [47] = root ∨ Below (scp .unix recursive) root dir ∨ Below (scp .unix recursive) root (dir ++ [47])) := by
  have hcat : ∀ dir c : List UInt8, dir ≠ [] → ∃ u, (dir = u ∨ dir = u ++ [47]) ∧
      inDirectory (scp .unix recursive) dir c = u ++ 47 :: c := by
    intro dir c hdir
    rw [inDirectory, if_pos hdir]
    simp only [scp, dirFileCat]
    split
    · next hlast =>
      obtain ⟨u, hu⟩ := List.getLast?_eq_some_iff.mp hlast
      exact ⟨u, .inr hu, by rw [hu, List.append_nil, List.append_assoc, List.singleton_append]⟩
    · exact ⟨dir, .inl rfl, by rw [List.append_assoc, List.singleton_append]⟩
  have hne : ∀ dir, Below (scp .unix recursive) root dir → dir ≠ [] := by
    intro dir hdir
    induction hdir with
    | child c hc =>
      obtain ⟨u, -, hu⟩ := hcat root c hroot
      rw [hu]
      simp
    | deeper dir c hdir hc ih =>
      obtain ⟨u, -, hu⟩ := hcat dir c ih
      rw [hu]
      simp
  cases h with
  | child c hc =>
    obtain ⟨u, hu, hpath⟩ := hcat root c hroot
    exact ⟨u, c, hpath, hc, by rcases hu with hu | hu <;> simp [hu]⟩
  | deeper dir c hdir hc =>
    obtain ⟨u, hu, hpath⟩ := hcat dir c (hne dir hdir)
    refine ⟨u, c, hpath, hc, ?_⟩
    rcases hu with rfl | rfl
    · exact .inr (.inr (.inl hdir))
    · exact .inr (.inr (.inr hdir))

/-- `pscp -r host:.. dir`: a directory of any name is taken for dir/.. itself. -/
def parentAsked : St Unit Unit := start (text "D0755 0 x\nC0644 1 evil\nA" ++ [0])

theorem parent_log : (sink (scp .unix true) noSftp (withDirectories [text "dir", text "dir/.."]) (fun _ _ => false) 8 parentAsked
    (text "dir") (some (text ".."))).2.log = [.openNewFile (text "dir/../evil")] := by
  decide +kernel

theorem not_below_parent : ¬ Below (scp .unix true) (text "dir") (text "dir/../evil") := by
  intro h
  have hlast : ∀ dir c : List UInt8, Component .unix c → afterLast 47 (dir ++ 47 :: c) = c := fun dir c hc =>
    afterLast_append 47 dir c (hc.single 47 List.mem_cons_self)
  have hdir : ∀ dir, Below (scp .unix true) (text "dir") dir → isDots (afterLast 47 dir) = false := by
    intro dir hbelow
    obtain ⟨u, c, rfl, hc, -⟩ := below_unix (by decide) hbelow
    rw [hlast u c hc]
    exact hc.notDots
  obtain ⟨dir, c, hpath, hc, hplace⟩ := below_unix (by decide) h
  have hcomponent := hlast dir c hc
  rw [← hpath] at hcomponent
  have hsplit : dir ++ 47 :: c = text "dir/.." ++ 47 :: text "evil" := hpath.symm
  have hevil : c = text "evil" := by
    rw [← hcomponent]
    decide
  rw [hevil] at hsplit
  have hparent := List.append_cancel_right hsplit
  rw [hparent] at hplace
  rcases hplace with hplace | hplace | hplace | hplace
  · exact absurd hplace (by decide)
  · exact absurd hplace (by decide)
  · exact absurd (hdir _ hplace) (by decide)
  · exact absurd (hdir _ hplace) (by decide)

theorem dots_lead_out_of_the_target : ¬ Confined (scp .unix true) (text "dir") (some (text "..")) true
    (sink (scp .unix true) noSftp (withDirectories [text "dir", text "dir/.."]) (fun _ _ => false) 8 parentAsked (text "dir")
      (some (text ".."))).2 := by
  intro h
  have hop := h.paths (.openNewFile (text "dir/../evil"))
  rw [parent_log] at hop
  rcases hop List.mem_cons_self with hroot | ⟨-, hbelow⟩
  · exact absurd hroot (by decide)
  · exact not_below_parent hbelow

end Putty.Pscp
