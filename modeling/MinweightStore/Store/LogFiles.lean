import MinweightStore.Store.PointInTime
import MinweightStore.Store.Writing

/-!
# The log on the disk

The segments of a store that works are the files of its directory, and so they stay with every
record that is logged.

* `dirRecovered_appended`, `dirRecovered_fresh` — what a directory recovers to with one record more,
  and with a new segment;
* `Logs` — **what a store logs**, and its directory with it;
* `appendActive_logs`, `rollover_logs` — the two ways to it;
* `appendOrRollover_logs` — a record that fits into a segment is logged;
* `appendOrRollover_refused` — any other is refused.
-/

namespace MinweightStore.Store

open Minpatricia (ByteView Position Index kMaxKeySize)
open ValidPrefix

/-! ### Directories -/

section Directory

variable {files : WalDir} {l : List (ℕ × WalFile)} {id : ℕ} {f : WalFile} {op : UInt8}
  {key value : ByteView} {walSize : ℕ}

theorem dirRecovered_complete (h : AllComplete (dirPieces files)) :
    dirRecovered files = (dirPieces files).flatMap Piece.marked := recover_complete h

/-- **A record appended to the last segment** is the last one recovered. -/
theorem dirRecovered_appended (hfiles : files.entries = l ++ [(id, f)])
    (hcomplete : AllComplete (dirPieces files)) (h : Appendable f walSize op key value) :
    AllComplete (dirPieces (files.insert id (f.appended op key value))) ∧
      dirRecovered (files.insert id (f.appended op key value)) = dirRecovered files ++
        [(id, headerUsed f.bytes, ⟨op, key, value, headerUsed f.bytes + recordSize key value⟩)] := by
  have hold : dirPieces files = (l.map fun e => filePiece e.1 e.2) ++ [filePiece id f] := by
    rw [dirPieces, hfiles, List.map_append, List.map_singleton]
  have hinsert : (files.insert id (f.appended op key value)).entries =
      l ++ [(id, f.appended op key value)] := by
    have hmiddle : files.entries = l ++ [(id, f)] ++ [] := by rw [hfiles, List.append_nil]
    rw [SortedMap.insert_entries_middle hmiddle, List.append_nil]
  have hlast : (filePiece id f).complete = true := hcomplete _ (by
    rw [hold]
    exact List.mem_append_right _ List.mem_cons_self)
  have hnew : dirPieces (files.insert id (f.appended op key value)) =
      (l.map fun e => filePiece e.1 e.2) ++ [filePiece id (f.appended op key value)] := by
    rw [dirPieces, hinsert, List.map_append, List.map_singleton]
  have hpiece : filePiece id (f.appended op key value) = _ := filePiece_appended h hlast
  have hall : AllComplete (dirPieces (files.insert id (f.appended op key value))) := by
    intro p hp
    rw [hnew, hpiece] at hp
    rcases List.mem_append.mp hp with hp | hp
    · exact hcomplete p (by
        rw [hold]
        exact List.mem_append_left _ hp)
    · rw [List.mem_singleton.mp hp]
  refine ⟨hall, ?_⟩
  rw [dirRecovered_complete hall, dirRecovered_complete hcomplete, hnew, hold, hpiece,
    List.flatMap_append, List.flatMap_append, List.append_assoc]
  refine congrArg _ ?_
  simp only [List.flatMap_cons, List.flatMap_nil, List.append_nil, Piece.marked, List.map_append,
    List.map_cons, List.map_nil]
  rfl

/-- **A new segment behind the others** changes nothing. -/
theorem dirRecovered_fresh (hlast : ∀ e ∈ files.entries, e.1 < id)
    (hcomplete : AllComplete (dirPieces files)) (hsize : kWalHeaderSize ≤ walSize) :
    AllComplete (dirPieces (files.insert id (freshFile walSize))) ∧
      dirRecovered (files.insert id (freshFile walSize)) = dirRecovered files := by
  have hnew : dirPieces (files.insert id (freshFile walSize)) =
      dirPieces files ++ [⟨id, [], true⟩] := by
    rw [dirPieces, SortedMap.insert_entries_last _ hlast, List.map_append, List.map_singleton,
      freshFile, filePiece_fresh id hsize]
    rfl
  have hall : AllComplete (dirPieces (files.insert id (freshFile walSize))) := by
    intro p hp
    rw [hnew] at hp
    rcases List.mem_append.mp hp with hp | hp
    · exact hcomplete p hp
    · rw [List.mem_singleton.mp hp]
  refine ⟨hall, ?_⟩
  rw [dirRecovered_complete hall, dirRecovered_complete hcomplete, hnew, List.flatMap_append]
  exact List.append_nil _

end Directory

/-! ### Stores -/

/-- **What a store logs**, and its directory with it. -/
structure Logs (w : World) (files : WalDir) (more : List Logged) (w' : World) (files' : WalDir) :
    Prop where
  opened : Opened w' files'
  complete : AllComplete (dirPieces files')
  recovered : dirRecovered files' = dirRecovered files ++ more
  wrote : Wrote w w'
  grown : ∃ k, w'.records.activeFileNo = w.records.activeFileNo + k ∧
    w'.records.segments.size = w.records.segments.size + k

/-- **Room for a record** in the active segment. -/
def HasRoom (w : World) (key value : ByteView) : Prop :=
  ∃ seg, w.records.segments.get? w.records.activeFileNo = some seg ∧ seg.room key value = .ok seg.used

/-- A logged record with this content. -/
structure Logged.Is (x : Logged) (op : UInt8) (key value : ByteView) : Prop where
  op_eq : x.2.2.op = op
  key_eq : x.2.2.key = key
  value_eq : x.2.2.value = value

section Logs

variable {env : Env} {w w' w'' : World} {files files' files'' : WalDir} {more more' : List Logged}
  {op : UInt8} {key value : ByteView}

theorem Logs.trans (h : Logs w files more w' files') (h' : Logs w' files' more' w'' files'') :
    Logs w files (more ++ more') w'' files'' := by
  obtain ⟨k, hactive, hsize⟩ := h.grown
  obtain ⟨k', hactive', hsize'⟩ := h'.grown
  refine ⟨h'.opened, h'.complete, ?_, h.wrote.trans h'.wrote, k + k', by omega, by omega⟩
  rw [h'.recovered, h.recovered, List.append_assoc]

/-- The active segment is the last file. -/
theorem Opened.last (h : Opened w files) (hlog : LogOk w) :
    (∀ e ∈ files.entries, e.1 ≤ w.records.activeFileNo) ∧
      ∃ l f, files.entries = l ++ [(w.records.activeFileNo, f)] := by
  have hle : ∀ e ∈ files.entries, e.1 ≤ w.records.activeFileNo := by
    intro e he
    have hfile := (SortedMap.mem_entries_iff _ _ _).mp he
    obtain ⟨seg, hs⟩ := Option.isSome_iff_exists.mp ((h.segments e.1).mpr (by rw [hfile]; rfl))
    exact hlog.top e.1 seg hs
  obtain ⟨seg, hs⟩ := hlog.active
  obtain ⟨f, hf⟩ := h.file hs
  obtain ⟨l, r, hsplit⟩ := SortedMap.exists_middle hf
  refine ⟨hle, l, f, ?_⟩
  cases r with
  | nil => rw [hsplit, List.append_nil]
  | cons e r =>
    -- an entry behind it has a larger number
    have hsorted := files.sorted
    rw [hsplit, List.pairwise_append] at hsorted
    have hlt := hsorted.2.2 (w.records.activeFileNo, f)
      (List.mem_append_right _ List.mem_cons_self) e List.mem_cons_self
    have hmem : e ∈ files.entries := by
      rw [hsplit]
      exact List.mem_append_right _ List.mem_cons_self
    exact absurd (hle e hmem) (Nat.not_le.mpr hlt)

/-- The segments are still the files when a record is appended to both. -/
theorem Opened.appended (h : Opened w files) {seg : WalSegment} {f : WalFile} {t : ℕ}
    (hs : w.records.segments.get? w.records.activeFileNo = some seg)
    (hf : files.get? w.records.activeFileNo = some f)
    (happendable : Appendable f w.records.walSize op key value) :
    Opened (appendedWorld w w.records.activeFileNo seg f op key value t)
      (files.insert w.records.activeFileNo (f.appended op key value)) := by
  obtain ⟨hno, hsize, hused⟩ := h.segment _ seg f hs hf
  obtain ⟨hpos, hlt, _⟩ := h.images.image _ _ hf
  obtain ⟨hfile, hnewUsed⟩ := happendable.fileOk
  have hdisk : (appendedWorld w w.records.activeFileNo seg f op key value t).disk =
      w.withDir (files.insert w.records.activeFileNo (f.appended op key value)) := by
    show w.disk.setWalFile w.records.generation w.records.activeFileNo _ = _
    rw [Disk.setWalFile, h.dir_eq, hused]
    rfl
  refine ⟨⟨h.images.size_lo, h.images.size_hi, fun id g hg => ?_⟩, ?_, fun id => ?_,
    fun id s g hsid hg => ?_⟩
  · rw [SortedMap.get?_insert] at hg
    split at hg
    · rename_i hid
      obtain rfl := Option.some.inj hg
      exact ⟨hid ▸ hpos, hid ▸ hlt, hfile⟩
    · exact h.images.image id g hg
  · rw [hdisk]
    exact World.withDir_dir w _
  · rw [appendedWorld_segments, SortedMap.get?_insert, SortedMap.get?_insert, hno]
    split
    · exact Iff.rfl
    · exact h.segments id
  · rw [appendedWorld_segments, SortedMap.get?_insert, hno] at hsid
    rw [SortedMap.get?_insert] at hg
    split at hsid
    · rename_i hid
      rw [if_pos hid] at hg
      obtain rfl := Option.some.inj hsid
      obtain rfl := Option.some.inj hg
      exact ⟨hno.trans hid.symm, hsize, by rw [hnewUsed, ← hused]; rfl⟩
    · rename_i hid
      rw [if_neg hid] at hg
      exact h.segment id s g hsid hg

/-- **`Active()->Append` with room** logs the record. -/
theorem appendActive_logs (henv : env.Survives) (h : Accepting w) (hopened : Opened w files)
    (hcomplete : AllComplete (dirPieces files)) (hkey : key.length ≤ kMaxKeySize)
    (hop : op = kWalOpPut ∨ op = kWalOpDelete ∧ value = []) (hroom : HasRoom w key value) :
    ∃ x w' files', appendActive env op key value w = .ok x.pos w' ∧
      Logs w files [x] w' files' ∧ x.Is op key value ∧ AtEnd w op key value x.pos w' := by
  obtain ⟨seg, hs, hroom⟩ := hroom
  obtain ⟨hok, _, f, hf, _⟩ := h.log.segment _ _ hs
  obtain ⟨hfits, hlimit, _⟩ := room_bounds hroom
  have hrecord := recordSize_pos key value
  have hrun : ∃ t, appendActive env op key value w =
      .ok (recordPosition w.records.activeFileNo seg.used)
        (appendedWorld w w.records.activeFileNo seg f op key value t) := by
    rw [appendActive, Prog.get_bind]
    rcases append_survives henv hs hf op key value with ⟨message, _, hfull⟩ | ⟨_, t, hrun⟩
    · exact absurd (hroom.symm.trans hfull) (by simp [err])
    · rw [makeRecordPosition_eq hok.fileNo_lt (show seg.used < 2 ^ 30 by omega) hok.pos,
        Prog.ofOutcome] at hrun
      exact ⟨t, hrun⟩
  obtain ⟨t, hrun⟩ := hrun
  obtain ⟨hwrote, hend, hsize⟩ := Prog.wp_run_ok (wp_appendActive henv h hkey hop) hrun
  have hfile : files.get? w.records.activeFileNo = some f := by
    rw [← hopened.dir_eq]
    exact hf
  obtain ⟨_, l, f', hentries⟩ := hopened.last h.log
  obtain rfl : f' = f := by
    have hmem : (w.records.activeFileNo, f') ∈ files.entries := by
      rw [hentries]
      exact List.mem_append_right _ List.mem_cons_self
    exact Option.some.inj (((SortedMap.mem_entries_iff _ _ _).mp hmem).symm.trans hfile)
  obtain ⟨_, hsegsize, hused⟩ := hopened.segment _ seg f' hs hfile
  have happendable : Appendable f' w.records.walSize op key value :=
    ⟨(hopened.images.image _ _ hfile).2.2, hopened.images.size_hi, hop, hkey, by
      have hle := hok.used_le
      rw [← hused, ← hsegsize]
      omega⟩
  obtain ⟨hall, hrecovered⟩ := dirRecovered_appended hentries hcomplete happendable
  rw [← hused] at hrecovered
  exact ⟨(w.records.activeFileNo, seg.used, ⟨op, key, value, seg.used + recordSize key value⟩), _, _,
    hrun, ⟨hopened.appended hs hfile happendable, hall, hrecovered, hwrote, 0, rfl, hsize⟩,
    ⟨rfl, rfl, rfl⟩, hend⟩

/-- The segments are still the files when a new one is opened. -/
theorem Opened.withRollover (h : Opened w files) {old : WalSegment} {t : ℕ}
    (hs : w.records.segments.get? w.records.activeFileNo = some old)
    (hold : old.fileNo = w.records.activeFileNo) (hpos : 0 < w.records.nextFileNo)
    (hno : w.records.nextFileNo < 2 ^ 33) :
    Opened (rolledOver w old { openedSegment w.records.nextFileNo w.records.walSize .empty with
      isSealed := false } (w.withDir (files.insert w.records.nextFileNo
        (freshFile w.records.walSize))) t)
      (files.insert w.records.nextFileNo (freshFile w.records.walSize)) := by
  have hlo := h.images.size_lo
  have hfresh : FileOk (freshFile w.records.walSize) w.records.walSize :=
    fileOk_freshFile (by omega)
  have hsegments : ∀ id, (rolledOver w old { openedSegment w.records.nextFileNo w.records.walSize
      .empty with isSealed := false } (w.withDir (files.insert w.records.nextFileNo
        (freshFile w.records.walSize))) t).records.segments.get? id =
      if id = w.records.nextFileNo then some { openedSegment w.records.nextFileNo w.records.walSize
        .empty with isSealed := false }
      else if id = w.records.activeFileNo then some { old with isSealed := true }
      else w.records.segments.get? id := fun id => by
    show ((w.records.segments.insert _ _).insert _ _).get? id = _
    rw [SortedMap.get?_insert, SortedMap.get?_insert, hold]
  refine ⟨⟨hlo, h.images.size_hi, fun id f hf => ?_⟩, World.withDir_dir w _, fun id => ?_,
    fun id seg f hsid hf => ?_⟩
  · rw [SortedMap.get?_insert] at hf
    split at hf
    · rename_i hid
      rw [← Option.some.inj hf, hid]
      exact ⟨hpos, hno, hfresh⟩
    · exact h.images.image id f hf
  · rw [hsegments, SortedMap.get?_insert]
    split
    · exact ⟨fun _ => rfl, fun _ => rfl⟩
    split
    · rename_i hid
      subst hid
      rw [← h.segments, hs]
      exact Iff.rfl
    · exact h.segments id
  · rw [hsegments] at hsid
    rw [SortedMap.get?_insert] at hf
    split at hsid
    · rename_i hid
      rw [if_pos hid] at hf
      obtain rfl := Option.some.inj hsid
      obtain rfl := Option.some.inj hf
      exact ⟨hid.symm, rfl, rfl⟩
    · rename_i hid
      rw [if_neg hid] at hf
      split at hsid
      · rename_i hid'
        subst hid'
        obtain rfl := Option.some.inj hsid
        exact h.segment _ old f hs hf
      · exact h.segment id seg f hsid hf

/-- **`Rollover` when its calls succeed** logs nothing, and makes room. -/
theorem rollover_logs (henv : env.Survives) (hsite : env.ReliableAt .append) (h : Accepting w)
    (hopened : Opened w files) (hcomplete : AllComplete (dirPieces files))
    (hno : w.records.nextFileNo < 2 ^ 33) : ∃ w' files', rollover env w = .ok () w' ∧
      Logs w files [] w' files' ∧ w'.records.nextFileNo = w.records.nextFileNo + 1 ∧
      ∃ seg, w'.records.segments.get? w'.records.activeFileNo = some seg ∧
        seg.isSealed = false ∧ seg.used = kWalHeaderSize ∧ seg.size = w.records.walSize := by
  obtain ⟨old, hs, hunsealed⟩ := h.unsealed
  have hold := (h.log.segment _ _ hs).1.fileNo_eq
  have hnext := h.log.next
  have hlo := h.log.size_lo
  obtain ⟨hle, _⟩ := hopened.last h.log
  have hbehind : ∀ e ∈ files.entries, e.1 < w.records.nextFileNo := fun e he => by
    have := hle e he
    omega
  have hnone : files.get? w.records.nextFileNo = none := by
    cases hf : files.get? w.records.nextFileNo with
    | none => rfl
    | some f =>
      have := hbehind _ ((SortedMap.mem_entries_iff _ _ _).mpr hf)
      exact absurd this (lt_irrefl _)
  obtain ⟨t, hopen⟩ := openSegment_ok (w := rolling w old) hsite henv.stores hlo h.log.size_hi
    (show 0 < w.records.nextFileNo by omega) hno hopened.dir
    (f := .empty) (by rw [hnone]; rfl) (Or.inl rfl) false
  have hderef : WalSegment.deref w.records.activeFileNo w = .ok old w := by
    rw [WalSegment.deref, hs]
  have hseal : setSealed w.records.activeFileNo true w =
      .ok () (w.setSegment { old with isSealed := true }) := by
    rw [setSealed, Prog.bind_ok hderef]
    rfl
  have hrun : rollover env w = .ok () (rolledOver w old
      { openedSegment w.records.nextFileNo w.records.walSize .empty with isSealed := false }
      (w.withDir (files.insert w.records.nextFileNo (freshFile w.records.walSize))) t) := by
    rw [rollover, Prog.get_bind]
    simp only [hs, Option.isNone_some, Bool.false_eq_true, if_false]
    rw [Prog.bind_ok hseal, Prog.modify_bind]
    exact Prog.bind_ok (Prog.attempt_ok hopen)
  obtain ⟨hwrote, hnextNew, _⟩ := Prog.wp_run_ok (wp_rollover henv h) hrun
  obtain ⟨hall, hrecovered⟩ := dirRecovered_fresh hbehind hcomplete
    (show kWalHeaderSize ≤ w.records.walSize by omega)
  refine ⟨_, _, hrun, ⟨hopened.withRollover hs hold (by omega) hno, hall, ?_, hwrote, 1, ?_, ?_⟩,
    hnextNew, { openedSegment w.records.nextFileNo w.records.walSize .empty with isSealed := false },
    ?_, rfl, headerUsed_freshFile (by omega), rfl⟩
  · rw [hrecovered, List.append_nil]
  · exact hnext
  · show ((w.records.segments.insert _ _).insert _ _).size = _
    have hnew : (w.records.segments.insert old.fileNo { old with isSealed := true }).get?
        w.records.nextFileNo = none := by
      have hiff := hopened.segments w.records.nextFileNo
      rw [hnone] at hiff
      rw [SortedMap.get?_insert, hold, if_neg (by omega)]
      exact Option.not_isSome_iff_eq_none.mp (fun hsome => absurd (hiff.mp hsome) (by simp))
    rw [SortedMap.size_insert_of_none _ hnew, hold, SortedMap.size_insert_of_some _ hs]
  · show ((w.records.segments.insert _ _).insert _ _).get? w.records.nextFileNo = _
    rw [SortedMap.get?_insert, if_pos rfl]

/-- **A record that fits into a segment is logged**, with a rollover if need be. -/
theorem appendOrRollover_logs (henv : env.Survives) (hsite : env.ReliableAt .append)
    (h : Accepting w) (hopened : Opened w files) (hcomplete : AllComplete (dirPieces files))
    (hkey : key.length ≤ kMaxKeySize) (hop : op = kWalOpPut ∨ op = kWalOpDelete ∧ value = [])
    (hno : w.records.nextFileNo < 2 ^ 33)
    (hfit : kWalHeaderSize + recordSize key value ≤ w.records.walSize) :
    ∃ x w' files', appendOrRollover env op key value w = .ok x.pos w' ∧
      Logs w files [x] w' files' ∧ x.Is op key value ∧ AtEnd w op key value x.pos w' := by
  obtain ⟨seg, hs, hunsealed⟩ := h.unsealed
  rcases room_cases seg key value with ⟨message, hfull⟩ | hroom
  · obtain ⟨w₁, files₁, hroll, hlogs, _, seg₁, hs₁, hunsealed₁, hused₁, hsize₁⟩ :=
      rollover_logs henv hsite h hopened hcomplete hno
    have hroom₁ : seg₁.room key value = .ok seg₁.used := room_ok hunsealed₁ hkey
      (by rw [hused₁, hsize₁]; exact hfit) (by rw [hsize₁]; exact h.log.size_hi)
    obtain ⟨x, w', files', happend, hlogs', his, _⟩ := appendActive_logs henv hlogs.wrote.accepting
      hlogs.opened hlogs.complete hkey hop ⟨seg₁, hs₁, hroom₁⟩
    have hfail : appendActive env op key value w = .error (.status ⟨.walFull, message⟩) w := by
      have hderef : WalSegment.deref w.records.activeFileNo w = .ok seg w := by
        rw [WalSegment.deref, hs]
      rw [appendActive, Prog.get_bind, WalSegment.append, Prog.bind_ok hderef, hfull]
      rfl
    have hrun : appendOrRollover env op key value w = .ok x.pos w' := by
      rw [appendOrRollover, Prog.bind_ok (Prog.attempt_status hfail)]
      simp only [ne_eq, not_true_eq_false, if_false]
      rw [Prog.bind_ok hroll, happend]
    exact ⟨x, w', files', hrun, hlogs.trans hlogs', his,
      (Prog.wp_run_ok (wp_appendOrRollover henv h hkey hop) hrun).2.1⟩
  · obtain ⟨x, w', files', happend, hlogs, his, hend⟩ :=
      appendActive_logs henv h hopened hcomplete hkey hop ⟨seg, hs, hroom⟩
    refine ⟨x, w', files', ?_, hlogs, his, hend⟩
    rw [appendOrRollover, Prog.bind_ok (Prog.attempt_ok happend)]
    rfl

/-- The status of a record that fits into no segment. -/
def refusal (key value : ByteView) : Status :=
  ⟨.walFull, if key.length > 2 ^ 32 - 1 ∨ value.length > 2 ^ 32 - 1 then "WAL record is too large"
    else "WAL segment is full"⟩

/-- An unsealed segment refuses such a record. -/
theorem room_refused {seg : WalSegment} (hunsealed : seg.isSealed = false)
    (hused : kWalHeaderSize ≤ seg.used) (hle : seg.used ≤ seg.size)
    (hfit : seg.size < kWalHeaderSize + recordSize key value) :
    seg.room key value = err (refusal key value) := by
  rw [WalSegment.room, refusal, hunsealed, if_neg Bool.false_ne_true]
  split
  · rfl
  · rw [if_pos (by omega)]

/-- **`Active()->Append` refuses a record that fits into no segment.** -/
theorem appendActive_refused (h : Accepting w)
    (hfit : w.records.walSize < kWalHeaderSize + recordSize key value) :
    appendActive env op key value w = .error (.status (refusal key value)) w := by
  obtain ⟨seg, hs, hunsealed⟩ := h.unsealed
  obtain ⟨hok, hsize, _⟩ := h.log.segment _ _ hs
  have hderef : WalSegment.deref w.records.activeFileNo w = .ok seg w := by
    rw [WalSegment.deref, hs]
  rw [appendActive, Prog.get_bind, WalSegment.append, Prog.bind_ok hderef,
    room_refused hunsealed hok.header hok.used_le (by rw [hsize]; exact hfit)]
  rfl

/-- It is tried on a new segment too. -/
theorem appendOrRollover_refused_eq (h : Accepting w)
    (hfit : w.records.walSize < kWalHeaderSize + recordSize key value) :
    appendOrRollover env op key value w =
      (rollover env >>= fun _ => appendActive env op key value) w := by
  have hfull : ¬ (refusal key value).code ≠ .walFull := not_not.mpr rfl
  rw [appendOrRollover, Prog.bind_ok (Prog.attempt_status (appendActive_refused h hfit))]
  simp only [if_neg hfull]

variable (op) in
/-- **A record that fits into no segment is refused**, and leaves an empty segment behind. -/
theorem appendOrRollover_refused (henv : env.Survives) (hsite : env.ReliableAt .append)
    (h : Accepting w) (hopened : Opened w files) (hcomplete : AllComplete (dirPieces files))
    (hno : w.records.nextFileNo < 2 ^ 33)
    (hfit : w.records.walSize < kWalHeaderSize + recordSize key value) :
    ∃ w' files', appendOrRollover env op key value w =
        .error (.status (refusal key value)) w' ∧ Logs w files [] w' files' ∧
      w'.records.segments.size = w.records.segments.size + 1 ∧
      w'.records.nextFileNo = w.records.nextFileNo + 1 := by
  obtain ⟨w', files', hroll, hlogs, hnext, _⟩ := rollover_logs henv hsite h hopened hcomplete hno
  have hwal : w'.records.walSize = w.records.walSize := hlogs.wrote.walOnly.walSize
  obtain ⟨k, hgrown, hsegments⟩ := hlogs.grown
  have hold := h.log.next
  have hnew := hlogs.wrote.accepting.log.next
  refine ⟨w', files', ?_, hlogs, by omega, hnext⟩
  rw [appendOrRollover_refused_eq h hfit, Prog.bind_ok hroll,
    appendActive_refused hlogs.wrote.accepting (hwal ▸ hfit)]

end Logs

end MinweightStore.Store
