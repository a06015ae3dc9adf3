import MinweightStore.Store.Sessions

/-!
# Writes that fail

What an open store shows behind writes that have failed, while it has fewer segments than a checkpoint
takes: a record that cannot be logged is not in the index, and a key whose tombstone cannot be logged is
put back.

* `World.Has.keep`, `Shows.wrote` — a log that is kept shows the same map;
* `Live` — an open store that shows a map and accepts records;
* `MapStep`, `live_step`, `live_run` — **a write that fails has not been made**, one by one and in runs;
* `refused_puts_grow_log` — a record that fits nowhere leaves a segment behind each time.
-/

namespace MinweightStore.Store

open Minpatricia (ByteView Position Index kMaxKeySize KnowsAll)

/-! ### Logs that are kept -/

section Keep

variable {w w' : World} {pos : Position} {key value : ByteView} {v : SortedMap ByteView ByteView}
  {pages : ℕ}

/-- A snapshot record that is read. -/
theorem SnapshotAt.of_has (h : w.Has pos key value) (hsnap : isSnapshotPosition pos = true) :
    SnapshotAt w pos key value := by
  obtain ⟨hkey, hvalue⟩ := h
  rw [World.key, if_pos hsnap] at hkey
  rw [World.valueView, if_pos hsnap] at hvalue
  cases hrecord : w.records.snapshotRecord pos with
  | none =>
    rw [hrecord] at hkey
    cases hkey
  | some record =>
    rw [hrecord] at hkey hvalue
    obtain rfl := Except.ok.inj hkey
    obtain rfl := Except.ok.inj hvalue
    rw [SegmentedRecordStore.snapshotRecord] at hrecord
    split at hrecord
    · cases hrecord
    obtain ⟨hget, hlive⟩ := Option.filter_eq_some_iff.mp hrecord
    refine ⟨by omega, hget.trans (congrArg some ?_)⟩
    obtain ⟨key, value, live⟩ := record
    obtain rfl : live = true := hlive
    rfl

/-- A log record that is read. -/
theorem recordAt_of_has (h : w.Has pos key value) (hsnap : isSnapshotPosition pos = false) :
    ∃ seg r, w.records.segments.get? (recordPositionFileNo pos) = some seg ∧
      seg.recordAt (w.mapping seg.fileNo) pos false = .ok r ∧ r.op = kWalOpPut ∧ r.key = key ∧
      r.value = value := by
  obtain ⟨hkey, hvalue⟩ := h
  rw [World.key, hsnap] at hkey
  rw [World.valueView, hsnap] at hvalue
  simp only [Bool.false_eq_true, if_false] at hkey hvalue
  cases hs : w.records.segments.get? (recordPositionFileNo pos) with
  | none =>
    rw [hs] at hkey
    cases hkey
  | some seg =>
    rw [hs] at hkey hvalue
    simp only at hkey hvalue
    cases hrecord : seg.recordAt (w.mapping seg.fileNo) pos false with
    | error fault =>
      rw [hrecord] at hkey
      cases hkey
    | ok r =>
      rw [hrecord] at hkey hvalue
      simp only [bind, Except.bind] at hkey hvalue
      by_cases hop : r.op = kWalOpPut
      · rw [if_neg (not_not.mpr hop)] at hkey hvalue
        exact ⟨seg, r, rfl, hrecord, hop, Except.ok.inj hkey, Except.ok.inj hvalue⟩
      · rw [if_pos hop] at hkey
        cases hkey

/-- **What a record store has**, it still has when nothing is lost. -/
theorem World.Has.keep (h : w.Has pos key value) (hk : Keeps w w') (hw : LogOk w) (hw' : LogOk w') :
    w'.Has pos key value := by
  cases hsnap : isSnapshotPosition pos with
  | true => exact ((SnapshotAt.of_has h hsnap).keep hk).resolves hw'
  | false =>
    obtain ⟨seg, r, hs, hrecord, hop, rfl, rfl⟩ := recordAt_of_has h hsnap
    obtain ⟨seg', hs', hle, hagree⟩ := hk.segment _ seg hs
    have hno := (hw.segment _ _ hs).1.fileNo_eq
    have hno' := (hw'.segment _ _ hs').1.fileNo_eq
    refine key_of_recordAt hsnap hs' ?_ hop
    rw [WalSegment.recordAt, hno, if_neg (not_not.mpr rfl)] at hrecord
    rw [WalSegment.recordAt, hno', if_neg (not_not.mpr rfl)]
    obtain ⟨haccepted, hr⟩ := recordAtOffset_ok_iff.mp hrecord
    obtain ⟨haccepted', hsame⟩ := haccepted.congr hagree
    exact recordAtOffset_ok_iff.mpr ⟨haccepted'.weaken hle, hr.trans hsame⟩

/-- A position that is read has no tag bit. -/
theorem World.Has.pos_lt (h : w.Has pos key value) (hw : LogOk w) : pos.toNat < 2 ^ 63 := by
  have hbits : kRecordOffsetBits = 30 := rfl
  cases hsnap : isSnapshotPosition pos with
  | true =>
    rw [isSnapshotPosition, Bool.and_eq_true] at hsnap
    have hlt : pos.toNat < kRecordOffsetLimit := of_decide_eq_true hsnap.2
    have hlimit : kRecordOffsetLimit = 2 ^ 30 := rfl
    omega
  | false =>
    obtain ⟨seg, _, hs, _⟩ := recordAt_of_has h hsnap
    have hno := (hw.segment _ _ hs).1.fileNo_lt
    rw [recordPositionFileNo, Nat.shiftRight_eq_div_pow, hbits] at hno
    omega

/-- The values of a map of positions. -/
theorem Values.wrote {m : SortedMap ByteView Position} (h : Values w m v) (hw : LogOk w)
    (hwrote : Wrote w w') : Values w' m v :=
  h.congr fun _ _ _ _ hhas => hhas.keep hwrote.keeps hw hwrote.accepting.log

end Keep

/-! ### A store that is alive -/

/-- **An open store that shows a map** and accepts records, whatever its files may be. -/
structure Live (v : SortedMap ByteView ByteView) (pages : ℕ) (w : World) : Prop where
  isOpen : w.isOpen = true
  fatal : w.fatal = none
  accepting : Accepting w
  shows : Shows w v pages

/-- **A call** on an open store, whichever of its file-system calls fail; a write with so few segments
that no checkpoint follows. -/
inductive WriteStep (w : World) : Event → World → Prop where
  | read {env : Env} {call : ReadCall} {event : Event} {w' : World}
      (step : CallStep env w (.read call) event w') : WriteStep w event w'
  | put {env : Env} {key value : ByteView} {event : Event} {w' : World} (survives : env.Survives)
      (early : ¬ MayCheckpoint w) (step : CallStep env w (.put key value) event w') :
      WriteStep w event w'
  | delete {env : Env} {key : ByteView} {event : Event} {w' : World} (survives : env.Survives)
      (early : ¬ MayCheckpoint w) (step : CallStep env w (.delete key) event w') : WriteStep w event w'

/-- **A map whose writes may fail.** -/
inductive MapStep : SortedMap ByteView ByteView → Event → SortedMap ByteView ByteView → Prop where
  | read (v : SortedMap ByteView ByteView) (call : ReadCall) :
      MapStep v (.read call (answerOf v call)) v
  | put (v : SortedMap ByteView ByteView) (key value : ByteView) :
      MapStep v (.put key value (.ok ())) (v.insert key value)
  | putFailed (v : SortedMap ByteView ByteView) (key value : ByteView) (status : Status) :
      MapStep v (.put key value (.error status)) v
  | delete (v : SortedMap ByteView ByteView) (key : ByteView) :
      MapStep v (.delete key (.ok (v.get? key).isSome)) (v.erase key)
  | deleteFailed (v : SortedMap ByteView ByteView) (key : ByteView) (status : Status) :
      MapStep v (.delete key (.error status)) v

section Live

variable {env : Env} {w w' : World} {v : SortedMap ByteView ByteView} {pages : ℕ}
  {key value : ByteView} {event : Event} {events : List Event}

/-- What the log does to a live store. -/
theorem Live.wrote (h : Live v pages w) (hwrote : Wrote w w') : Live v pages w' := by
  have hrest := hwrote.walOnly.rest
  obtain ⟨m, hix, hvalues⟩ := h.shows
  refine ⟨?_, ?_, hwrote.accepting, m, ?_, hvalues.wrote h.accepting.log hwrote⟩
  · rw [hrest]
    exact h.isOpen
  · rw [hrest]
    exact h.fatal
  · rw [hrest]
    exact hix

theorem Live.mono (h : Live v pages w) {pages' : ℕ} (hle : pages ≤ pages') : Live v pages' w := by
  obtain ⟨m, hix, hvalues⟩ := h.shows
  exact ⟨h.isOpen, h.fatal, h.accepting, m, hix.mono hle, hvalues⟩

/-- No checkpoint follows a write when none is due. -/
theorem checkpointIfNeeded_early (hearly : ¬ MayCheckpoint w)
    (hgrown : w'.records.segments.size ≤ w.records.segments.size + 1) :
    checkpointIfNeeded env w' = .ok () w' := by
  rw [MayCheckpoint] at hearly
  rw [checkpointIfNeeded, Prog.get_bind, if_pos (by omega)]
  rfl

/-- **`Put`** puts the value under its key, or changes nothing. -/
theorem Live.put (h : Live v pages w) (henv : env.Survives) (hearly : ¬ MayCheckpoint w)
    (hpages : pages < 2 ^ 63) (key value : ByteView) :
    Prog.wp (put env key value) (fun _ w' => Live (v.insert key value) (pages + 1) w')
      (fun fault w' => (∃ status, fault = .status status) ∧ Live v pages w') w := by
  rw [Store.put, Prog.wp_bind, Prog.wp_of_ok (checkOpen_ok h.isOpen h.fatal)]
  by_cases hkey : key.length > kMaxKeySize
  · rw [if_pos hkey]
    exact ⟨⟨_, rfl⟩, h⟩
  rw [if_neg hkey]
  refine Prog.wp_seq (wp_appendOrRollover henv h.accepting (Nat.not_lt.mp hkey) (Or.inl rfl)) ?_
    (fun _ _ h' => ⟨h'.2, h.wrote h'.1⟩)
  rintro pos w₁ ⟨hwrote, ⟨hlogged, _⟩, hgrown⟩
  obtain ⟨hisOpen, hfatal, haccepting, m, hix, hvalues⟩ := h.wrote hwrote
  obtain ⟨ix, hrun, hix'⟩ := hix.put hvalues.knowsAll (Nat.not_lt.mp hkey)
    (hlogged.range haccepting.log).2 (hlogged.resolves haccepting.log).1 hpages
  rw [Prog.wp_bind, Prog.wp_of_ok (onIndex_ok (f := fun records =>
    Minpatricia.put records key pos) hrun)]
  show Prog.wp (checkpointIfNeeded env) _ _ _
  have hcheckpoint : checkpointIfNeeded env (w₁.withIndex ix) = .ok () (w₁.withIndex ix) :=
    checkpointIfNeeded_early hearly hgrown
  rw [Prog.wp_of_ok hcheckpoint]
  exact ⟨hisOpen, hfatal, haccepting.congr rfl (fun _ => rfl), _, hix',
    hvalues.insert (hlogged.resolves haccepting.log)⟩

/-- **The tombstone** of a key that the index has forgotten, or the key put back. -/
theorem Live.writeTombstone (h : Live v pages w) (henv : env.Survives) (hearly : ¬ MayCheckpoint w)
    (hpages : pages < 2 ^ 63) (hkey : Legal key) {m : SortedMap ByteView Position} {ix : Index}
    {pos : Position} (hm : m.get? key = some pos) (hvalues : Values w m v)
    (hix : IndexFor ix (m.erase key) pages) (hpos : pos.toNat < 2 ^ 63) :
    Prog.wp (writeTombstone env key pos)
      (fun found w' => found = true ∧ Live (v.erase key) (pages + 1) w')
      (fun fault w' => (∃ status, fault = .status status) ∧ Live v (pages + 1) w')
      (w.withIndex ix) := by
  have haccepting : Accepting (w.withIndex ix) := h.accepting.congr rfl (fun _ => rfl)
  have hforgotten : ∀ w₁, Wrote (w.withIndex ix) w₁ → w₁.isOpen = true ∧ w₁.fatal = none ∧
      w₁.index = ix ∧ Values w₁ m v := by
    intro w₁ hwrote
    have hrest := hwrote.walOnly.rest
    have hsame : Values (w.withIndex ix) m v := hvalues.congr (fun _ _ _ _ hhas => hhas)
    refine ⟨?_, ?_, ?_, hsame.wrote haccepting.log hwrote⟩
    · rw [hrest]
      exact h.isOpen
    · rw [hrest]
      exact h.fatal
    · rw [hrest]
      rfl
  rw [Store.writeTombstone, Prog.wp_bind, Prog.wp_attempt]
  refine Prog.wp_mono (wp_appendOrRollover henv haccepting hkey (Or.inr ⟨rfl, rfl⟩)) ?_ ?_
  · rintro pos' w₁ ⟨hwrote, _, hgrown⟩
    obtain ⟨hisOpen, hfatal, hindex, hvalues₁⟩ := hforgotten w₁ hwrote
    show Prog.wp (checkpointIfNeeded env >>= fun _ => pure true) _ _ w₁
    rw [Prog.wp_bind, Prog.wp_of_ok (checkpointIfNeeded_early hearly hgrown)]
    exact ⟨rfl, hisOpen, hfatal, hwrote.accepting, _, hindex ▸ hix.mono (Nat.le_succ _),
      hvalues₁.erase key⟩
  · rintro _ w₁ ⟨hwrote, status, rfl⟩
    obtain ⟨hisOpen, hfatal, hindex, hvalues₁⟩ := hforgotten w₁ hwrote
    -- the key is put back at its old position: the map is the old one, the pages need not be
    obtain ⟨_, _, hhas⟩ := hvalues₁.get_some hm
    have hknows : KnowsAll w₁.key (m.erase key).entries := fun e he =>
      hvalues₁.knowsAll e ((SortedMap.mem_erase m key e).mp he).1
    obtain ⟨ix', hrun, hix'⟩ := hix.put hknows hkey hpos hhas.1 hpages
    rw [← hindex] at hrun
    show Prog.wp (onIndex (fun records => Minpatricia.put records key pos) >>= _) _ _ w₁
    rw [Prog.wp_bind, Prog.wp_of_ok (onIndex_ok (f := fun records =>
      Minpatricia.put records key pos) hrun)]
    refine ⟨⟨status, rfl⟩, hisOpen, hfatal, hwrote.accepting.congr rfl (fun _ => rfl), m, ?_,
      hvalues₁.congr (fun _ _ _ _ hhas => hhas)⟩
    rw [SortedMap.insert_erase hm] at hix'
    exact hix'

/-- **`Delete`** removes the key, or changes nothing. -/
theorem Live.delete (h : Live v pages w) (henv : env.Survives) (hearly : ¬ MayCheckpoint w)
    (hpages : pages < 2 ^ 63) (key : ByteView) :
    Prog.wp (delete env key)
      (fun found w' => found = (v.get? key).isSome ∧ Live (v.erase key) (pages + 1) w')
      (fun fault w' => (∃ status, fault = .status status) ∧ Live v (pages + 1) w') w := by
  have hcheck := checkOpen_ok h.isOpen h.fatal
  by_cases hlegal : Legal key
  · obtain ⟨m, hix, hvalues⟩ := h.shows
    have hget := hix.get hvalues.knowsAll hlegal
    cases hm : m.get? key with
    | none =>
      have hv := hvalues.get_none hm
      have hrun : Store.delete env key w = .ok false w := by
        rw [Store.delete, Prog.bind_ok hcheck, Prog.get_bind, hget, hm]
        rfl
      rw [Prog.wp_of_ok hrun, hv, SortedMap.erase_eq_self hv]
      exact ⟨rfl, h.mono (Nat.le_succ _)⟩
    | some pos =>
      obtain ⟨value, hv, hhas⟩ := hvalues.get_some hm
      obtain ⟨ix, hdelete, hix'⟩ := hix.delete hvalues.knowsAll hlegal
      rw [Prog.wp, delete_found hcheck hlegal (hget.trans (by rw [hm]))
        (hdelete.trans (by rw [hm])), hv]
      exact h.writeTombstone henv hearly hpages hlegal hm hvalues hix'
        (hhas.pos_lt h.accepting.log)
  · have hget : w.index.get w.key key = .error (.status .keyTooLarge) := by
      rw [Index.get, Index.probe, checkKeySize_refused hlegal]
      rfl
    have hrun : Store.delete env key w = .error (.status keyTooLarge) w := by
      rw [Store.delete, Prog.bind_ok hcheck, Prog.get_bind, hget]
      rfl
    rw [Prog.wp_of_error hrun]
    exact ⟨⟨_, rfl⟩, h.mono (Nat.le_succ _)⟩

/-- A reply, from how the program of a call ends. -/
theorem reply_of_wp {α : Type} {x : StoreM α} {P : Except Status α → World → Prop}
    {reply : Except Status α} (h : Prog.wp x (fun a w' => P (.ok a) w')
      (fun fault w' => ∃ status, fault = .status status ∧ P (.error status) w') w)
    (hrun : Prog.attempt x w = .ok reply w') : P reply w' := by
  refine Prog.wp_run_ok (E := fun _ _ => False) (Prog.wp_attempt.mpr (Prog.wp_mono h
    (fun _ _ h => h) ?_)) hrun
  rintro _ w₁ ⟨status, rfl, hP⟩
  exact hP

/-- **One call** is one of the map. -/
theorem live_step (h : Live v pages w) (hpages : pages < 2 ^ 63) (hstep : WriteStep w event w') :
    ∃ v', MapStep v event v' ∧ Live v' (pages + 1) w' := by
  cases hstep with
  | read hcall =>
    rename_i env call
    cases hcall
    rw [answer_eq h.shows h.isOpen h.fatal call, onlyReads_run call w]
    exact ⟨v, .read v call, h.mono (Nat.le_succ _)⟩
  | put henv hearly hcall =>
    rename_i env key value
    cases hcall with
    | put hrun =>
      refine reply_of_wp (P := fun reply w' => ∃ v', MapStep v (.put key value reply) v' ∧
        Live v' (pages + 1) w') (Prog.wp_mono (h.put henv hearly hpages key value)
        (fun _ _ h' => ⟨_, .put v key value, h'⟩) ?_) hrun
      rintro _ w₁ ⟨⟨status, rfl⟩, hlive⟩
      exact ⟨status, rfl, v, .putFailed v key value status, hlive.mono (Nat.le_succ _)⟩
  | delete henv hearly hcall =>
    rename_i env key
    cases hcall with
    | delete hrun =>
      refine reply_of_wp (P := fun reply w' => ∃ v', MapStep v (.delete key reply) v' ∧
        Live v' (pages + 1) w') (Prog.wp_mono (h.delete henv hearly hpages key) ?_ ?_) hrun
      · rintro _ w₁ ⟨rfl, hlive⟩
        exact ⟨_, .delete v key, hlive⟩
      · rintro _ w₁ ⟨⟨status, rfl⟩, hlive⟩
        exact ⟨status, rfl, v, .deleteFailed v key status, hlive⟩

/-- A run of calls, by induction on its events. -/
theorem live_run (h : Live v pages w) (hrun : Run WriteStep w events w')
    (hpages : pages + events.length < 2 ^ 63) :
    ∃ v', Run MapStep v events v' ∧ Live v' (pages + events.length) w' := by
  induction hrun with
  | nil => exact ⟨v, .nil v, h⟩
  | snoc hrun hlast ih =>
    rw [List.length_append, List.length_singleton, ← add_assoc] at hpages ⊢
    obtain ⟨v₁, hmap, hlive⟩ := ih (by omega)
    obtain ⟨v₂, hstep, hlive'⟩ := live_step hlive (by omega) hlast
    exact ⟨v₂, .snoc hmap hstep, hlive'⟩

/-- A store that serves a map is alive. -/
theorem Serves.live {walSize : ℕ} (h : Serves walSize v w) (hopen : w.isOpen = true)
    (hfatal : w.fatal = none) : ∃ pages, Live v pages w ∧ pages < 2 ^ 62 := by
  obtain ⟨_, files, entries, hstands, rfl⟩ := h
  exact ⟨_, ⟨hopen, hfatal, hstands.based.accepting, hstands.shows⟩, hstands.based.pages_lt⟩

end Live

/-! ### Runs -/

section Runs

variable {w w' : World} {walSize : ℕ} {v : SortedMap ByteView ByteView} {d : Disk}
  {events writes : List Event} {key value : ByteView}

/-- **A record that fits nowhere**: `Put` refuses it, and leaves a segment behind. -/
theorem put_refused (h : Serves walSize v w) (hopen : w.isOpen = true) (hfatal : w.fatal = none)
    (hlegal : Legal key) (hbig : walSize < kWalHeaderSize + recordSize key value)
    (hno : w.records.nextFileNo < 2 ^ 33) : ∃ w',
    CallStep .reliable w (.put key value) (.put key value (.error (refusal key value))) w' ∧
      Serves walSize v w' ∧ w'.isOpen = true ∧ w'.fatal = none ∧
      w'.records.segments.size = w.records.segments.size + 1 ∧
      w'.records.nextFileNo = w.records.nextFileNo + 1 := by
  obtain ⟨rfl, files, entries, hstands, rfl⟩ := h
  obtain ⟨w', files', hrun, hlogs, hsize, hnext⟩ := appendOrRollover_refused kWalOpPut
    Env.reliable_survives (fun _ => rfl) hstands.based.accepting hstands.based.opened
    hstands.based.complete hno hbig
  have hput : put .reliable key value w = .error (.status (refusal key value)) w' := by
    rw [put, Prog.bind_ok (checkOpen_ok hopen hfatal), if_neg (Nat.not_lt.mpr hlegal)]
    exact Prog.bind_error hrun
  have hrest := hlogs.wrote.walOnly.rest
  refine ⟨w', .put (Prog.attempt_status hput), hstands.serves_logs hlogs, ?_, ?_, hsize, hnext⟩
  · rw [hrest]
    exact hopen
  · rw [hrest]
    exact hfatal

/-- A value that fits into no segment of 8192 bytes. -/
theorem recordSize_big : 8192 < kWalHeaderSize + recordSize [1] (List.replicate 5000 0) := by
  rw [recordSize, List.length_replicate]
  decide

/-- **A write that fails has not been made**: in every open store that sessions reach, calls of which
any file-system calls fail, while there are so few segments that no checkpoint follows, show what a map
shows that a failed write leaves as it is; the store stays open, and does not become fatal. -/
theorem failed_writes_undone (hlo : kWalHeaderSize + kWalRecordHeaderSize ≤ walSize)
    (hhi : walSize ≤ kRecordOffsetLimit) (hd : DiskHolds walSize v d)
    (hdeletable : Deletable walSize v) (h : Run (SessionStep walSize) (World.boot d) events w)
    (hopen : w.isOpen = true) (hwrites : Run WriteStep w writes w') (hfew : writes.length < 2 ^ 62) :
    ∃ s v', Run (DurableMap.Step walSize) ⟨v, false⟩ events s ∧ Run MapStep s.map writes v' ∧
      w'.isOpen = true ∧ w'.fatal = none ∧
      ∀ call : ReadCall, answer call.run w' = answerOf v' call := by
  obtain ⟨s, hrun, hsim⟩ := simulates_run hlo hhi hd hdeletable h
  obtain ⟨hserves, hfatal⟩ := hsim.serves (hsim.isOpen.symm.trans hopen)
  obtain ⟨pages, hlive, hpages⟩ := hserves.live hopen hfatal
  obtain ⟨v', hmap, hlive'⟩ := live_run hlive hwrites (by omega)
  exact ⟨s, v', hrun, hmap, hlive'.isOpen, hlive'.fatal,
    fun call => answer_eq hlive'.shows hlive'.isOpen hlive'.fatal call⟩

/-- The first session, with a value that is too large. -/
theorem failed_writes_undone_first : ∃ w w', Run WriteStep w [.put [1] (List.replicate 5000 0)
      (.error (refusal [1] (List.replicate 5000 0)))] w' ∧
    ∃ s v', Run (DurableMap.Step 8192) ⟨.empty, false⟩ [.openStore smallOptions (.ok ())] s ∧
      Run MapStep s.map [.put [1] (List.replicate 5000 0)
        (.error (refusal [1] (List.replicate 5000 0)))] v' ∧
      w'.isOpen = true ∧ w'.fatal = none ∧
      ∀ call : ReadCall, answer call.run w' = answerOf v' call := by
  obtain ⟨w, hrun, hserves, hopen, hfatal, _, hnext, hsize, _⟩ := first_open
  obtain ⟨w', hcall, _⟩ := put_refused hserves hopen hfatal (show Legal [1] by decide) recordSize_big
    (by rw [hnext]; decide)
  have hearly : ¬ MayCheckpoint w := by
    rw [MayCheckpoint, hsize]
    decide
  have hwrites := Run.snoc (.nil w) (WriteStep.put Env.reliable_survives hearly hcall)
  exact ⟨w, w', hwrites, failed_writes_undone (by decide) (by decide) (diskHolds_empty (by decide))
    deletable_empty hrun hopen hwrites (by decide)⟩

/-- Such calls, one after the other. -/
theorem puts_refused (h : Serves walSize v w) (hopen : w.isOpen = true) (hfatal : w.fatal = none)
    (hlegal : Legal key) (hbig : walSize < kWalHeaderSize + recordSize key value) (n : ℕ)
    (hno : w.records.nextFileNo + n ≤ 2 ^ 33) : ∃ w',
    Run (fun w event w' => CallStep .reliable w (.put key value) event w') w
        (List.replicate n (.put key value (.error (refusal key value)))) w' ∧
      Serves walSize v w' ∧ w'.isOpen = true ∧ w'.fatal = none ∧
      w'.records.segments.size = w.records.segments.size + n ∧
      w'.records.nextFileNo = w.records.nextFileNo + n := by
  induction n with
  | zero => exact ⟨w, .nil w, h, hopen, hfatal, rfl, rfl⟩
  | succ n ih =>
    obtain ⟨w₁, hrun, hserves, hisOpen, hnotFatal, hsize, hnext⟩ := ih (by omega)
    obtain ⟨w₂, hcall, hserves', hisOpen', hfatal', hsize', hnext'⟩ :=
      put_refused hserves hisOpen hnotFatal hlegal hbig (by omega)
    refine ⟨w₂, ?_, hserves', hisOpen', hfatal', by omega, by omega⟩
    rw [List.replicate_succ']
    exact hrun.snoc hcall

/-- **Records that fit nowhere** fill the directory: each leaves a segment behind, no checkpoint takes
them away, and the map is the same. -/
theorem refused_puts_grow_log (hlo : kWalHeaderSize + kWalRecordHeaderSize ≤ walSize)
    (hhi : walSize ≤ kRecordOffsetLimit) (hd : DiskHolds walSize v d)
    (hdeletable : Deletable walSize v) (h : Run (SessionStep walSize) (World.boot d) events w)
    (hopen : w.isOpen = true) (hlegal : Legal key)
    (hbig : walSize < kWalHeaderSize + recordSize key value) (n : ℕ)
    (hno : w.records.nextFileNo + n ≤ 2 ^ 33) : ∃ w',
    Run (fun w event w' => CallStep .reliable w (.put key value) event w') w
        (List.replicate n (.put key value (.error (refusal key value)))) w' ∧
      w'.records.segments.size = w.records.segments.size + n ∧ SameAnswers w w' ∧
      w'.isOpen = true ∧ w'.fatal = none := by
  obtain ⟨s, _, hsim⟩ := simulates_run hlo hhi hd hdeletable h
  obtain ⟨hserves, hfatal⟩ := hsim.serves (hsim.isOpen.symm.trans hopen)
  obtain ⟨w', hrun, hserves', hopen', hfatal', hsize, _⟩ :=
    puts_refused hserves hopen hfatal hlegal hbig n hno
  obtain ⟨_, hshows⟩ := hserves.shows
  obtain ⟨_, hshows'⟩ := hserves'.shows
  exact ⟨w', hrun, hsize, sameAnswers_of_shows hshows hshows' hopen hopen' hfatal hfatal', hopen',
    hfatal'⟩

/-- A thousand of them in the first session. -/
theorem refused_puts_grow_log_first : ∃ w w',
    Run (fun w event w' => CallStep .reliable w (.put [1] (List.replicate 5000 0)) event w') w
      (List.replicate 1000 (.put [1] (List.replicate 5000 0)
        (.error (refusal [1] (List.replicate 5000 0))))) w' ∧
    w'.records.segments.size = w.records.segments.size + 1000 ∧ SameAnswers w w' ∧
    w'.isOpen = true ∧ w'.fatal = none := by
  obtain ⟨w, hrun, _, hopen, _, _, hnext, _⟩ := first_open
  exact ⟨w, refused_puts_grow_log (by decide) (by decide) (diskHolds_empty (by decide))
    deletable_empty hrun hopen (show Legal [1] by decide) recordSize_big 1000
    (by rw [hnext]; decide)⟩

end Runs

end MinweightStore.Store
