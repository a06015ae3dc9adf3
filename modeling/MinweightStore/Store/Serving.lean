import MinweightStore.Store.Restart

/-!
# Calls on a durable store

What checkpoints and public calls do to a store and to the map that its directory holds, when
file-system calls fail and the process is killed at them.

* `valuesFit_shownBy` — the values of a log fit into a snapshot;
* `completes_checkpointLocked` — **a checkpoint changes neither**, and the directory holds the map
  wherever it is stopped;
* `Based.append`, `Stands.refused` — a record is logged, or refused;
* `Answered` — how a call returns: with its answer, or with the status of a call that has failed;
* `completes_put`, `completes_delete`, `completes_close` — **the public calls**.
-/

namespace MinweightStore.Store

open Minpatricia (ByteView Position Index kMaxKeySize KnowsAll)
open ValidPrefix

/-! ### Values -/

section Values

variable {v : SortedMap ByteView ByteView} {key value : ByteView} {files : WalDir}
  {entries : List Item}

theorem valuesFit_empty : ValuesFit .empty := fun _ _ h =>
  absurd h (by simp [SortedMap.get?_empty])

theorem ValuesFit.insert (h : ValuesFit v) (hvalue : value.length < 2 ^ 32) :
    ValuesFit (v.insert key value) := by
  intro k x hx
  rw [SortedMap.get?_insert] at hx
  split at hx
  · rw [← Option.some.inj hx]
    exact hvalue
  · exact h k x hx

theorem ValuesFit.erase (h : ValuesFit v) : ValuesFit (v.erase key) := by
  intro k x hx
  rw [SortedMap.get?_erase] at hx
  split at hx
  · exact absurd hx (by simp)
  · exact h k x hx

/-- The length of a value has 32 bits in a record. -/
theorem value_lt_of_recovered {x : Logged} (h : x ∈ dirRecovered files) :
    x.2.2.value.length < 2 ^ 32 := by
  obtain ⟨p, hp, hxp⟩ := mem_recover h
  obtain ⟨e, _, rfl⟩ := List.mem_map.mp hp
  obtain ⟨y, hy, rfl⟩ := List.mem_map.mp hxp
  rw [(scan_accepted _ _ y hy).2, recordOf, length_readBytes]
  exact UInt32.toNat_lt _

/-- **The values of a log over a snapshot** fit into a snapshot. -/
theorem valuesFit_shownBy (h : ∀ item ∈ entries, item.Fits) : ValuesFit (shownBy files entries) := by
  have hsnapshot : ∀ (l : List Item) (v : SortedMap ByteView ByteView), ValuesFit v →
      (∀ item ∈ l, item.Fits) →
      ValuesFit (l.foldl (fun v item => v.insert item.key item.value) v) := by
    intro l
    induction l with
    | nil => exact fun _ hv _ => hv
    | cons item l ih =>
      intro v hv hl
      exact ih _ (hv.insert (hl item List.mem_cons_self).value_lt)
        (fun i hi => hl i (List.mem_cons_of_mem _ hi))
  have hlog : ∀ (l : List Logged) (v : SortedMap ByteView ByteView), ValuesFit v →
      (∀ x ∈ l, x.2.2.value.length < 2 ^ 32) → ValuesFit (l.foldl applyValue v) := by
    intro l
    induction l with
    | nil => exact fun _ hv _ => hv
    | cons x l ih =>
      intro v hv hl
      refine ih _ ?_ (fun y hy => hl y (List.mem_cons_of_mem _ hy))
      rw [applyValue, applyOp]
      split
      · exact hv.insert (hl x List.mem_cons_self)
      · exact hv.erase
  exact hlog _ _ (hsnapshot entries _ valuesFit_empty h) (fun x => value_lt_of_recovered)

theorem Serves.valuesFit {w : World} {walSize : ℕ} (h : Serves walSize v w) : ValuesFit v := by
  obtain ⟨_, files, entries, hstands, rfl⟩ := h
  exact valuesFit_shownBy hstands.based.items

end Values

/-! ### The checkpoint -/

section Checkpoint

variable {env : Env} {w : World} {walSize generation : ℕ} {v : SortedMap ByteView ByteView}

/-- The segments of a new generation. -/
theorem openedSegments_empty (walSize : ℕ) : openedSegments .empty walSize =
    SortedMap.empty.insert kFirstWalSegmentNo
      { openedSegment kFirstWalSegmentNo walSize .empty with isSealed := false } := by
  refine SortedMap.ext_get? (fun i => ?_)
  have hinit : initialDir .empty = SortedMap.empty.insert kFirstWalSegmentNo .empty := if_pos rfl
  rw [openedSegments, hinit, SortedMap.get?_mapValues, SortedMap.get?_insert, SortedMap.get?_insert]
  split
  · rename_i hi
    subst hi
    rfl
  · rfl

/-- **A new generation after its reset** is as if it had been opened. -/
theorem resetting_eq (hdir : w.disk.dir generation = .empty) (entries : List Item) (t t' : ℕ)
    (ix : Index) : ((((w.resetting generation t).onDisk (w.disk.setWalFile generation
      kFirstWalSegmentNo (openedFile .empty w.records.walSize)) t').setSegment
        { openedSegment kFirstWalSegmentNo w.records.walSize .empty with
          isSealed := false }).withSnapshot (.dummy :: entries.map Item.owned)).withIndex ix =
      preparedWorld w w.records.walSize generation entries t' ix := by
  have hdisk : w.disk.setWalFile generation kFirstWalSegmentNo (openedFile .empty w.records.walSize) =
      w.disk.setDir generation (openedDir (w.disk.dir generation) w.records.walSize) := by
    rw [Disk.setWalFile, hdir, openedDir_empty]
    rfl
  rw [preparedWorld, ← hdisk, hdir, openedRecords, openedSegments_empty]
  rfl

/-- `RebuildIndexFromSnapshotLocked` on a record store without snapshot records. -/
theorem rebuildIndex_ok {entries : List Item} (hrecords : w.records.snapshotRecords = [.dummy])
    (hitems : ∀ item ∈ entries, item.Fits) (hcount : entries.length < 2 ^ 30) : ∃ ix,
    rebuildIndex entries w =
      .ok () ((w.withSnapshot (.dummy :: entries.map Item.owned)).withIndex ix) ∧
    IndexFor ix (snapshotMap 1 entries .empty) (1 + entries.length) := by
  obtain ⟨empty, hnew, hempty⟩ := newIndex_ok w hrecords
  obtain ⟨ix, hload, hloaded⟩ := loadSnapshotRecords_ok entries hempty
    (fun item hi => (hitems item hi).key_le) (by
      rw [hrecords, List.length_singleton]
      omega)
  rw [hrecords] at hload hloaded
  refine ⟨ix, ?_, hloaded.indexed.1⟩
  rw [rebuildIndex, Prog.bind_ok hnew, Prog.bind_ok hload]
  rfl

/-- **A published generation is entered**: its first segment is created, its snapshot loaded. -/
theorem completes_reset {entries : List Item} (hlog : LogOk w)
    (h : HoldsIn w.records.walSize generation entries w.disk v)
    (hdir : w.disk.wal.get? generation = some .empty) :
    completes env (DiskHolds w.records.walSize v)
      (resetToSnapshot env generation >>= fun _ => rebuildIndex entries) (fun _ w' => ∃ t ix,
        w' = preparedWorld w w.records.walSize generation entries t ix ∧
        IndexFor ix (snapshotMap 1 entries .empty) (1 + entries.length)) w := by
  have hpos := h.generation_pos
  have hempty : w.disk.dir generation = .empty := by
    rw [Disk.dir, hdir]
    rfl
  have hfirst : (initialDir (w.disk.dir generation)).get? kFirstWalSegmentNo = some .empty := by
    rw [hempty]
    rfl
  refine completes_bind (completes_mono (completes_resetToSnapshot (f := .empty) h.generation?_eq hlog
    (by omega) hdir rfl (Or.inl rfl)) (fun d hd => ⟨_, _, h.opening hfirst hd⟩) (fun _ _ h => h))
    (fun _ w₁ h₁ => ?_)
  obtain ⟨t, t', rfl⟩ := h₁
  obtain ⟨ix, hrun, hix⟩ := rebuildIndex_ok (w := (((w.resetting generation
    t).onDisk (w.disk.setWalFile generation kFirstWalSegmentNo (openedFile .empty
      w.records.walSize)) t').setSegment { openedSegment kFirstWalSegmentNo w.records.walSize .empty
        with isSealed := false })) rfl h.items h.count
  rw [resetting_eq hempty] at hrun
  exact (Prog.wp_of_ok hrun).mpr ⟨t', ix, rfl, hix⟩

/-- **A checkpoint of a map** changes neither the store nor the directory, as far as the map goes;
and the directory holds the map wherever the process is stopped. -/
theorem completes_checkpointLocked (h : Serves walSize v w)
    (hfew : v.size < 2 ^ 30) (hg : w.records.generation + 1 < 2 ^ 64) :
    completes env (DiskHolds walSize v) (checkpointLocked env) (fun _ w' =>
      Serves walSize v w' ∧ w'.isOpen = w.isOpen ∧ w'.fatal = w.fatal) w := by
  obtain ⟨pages, hshows⟩ := h.shows
  have hitems := hshows.fits h.valuesFit
  obtain ⟨rfl, files, entries, hstands, rfl⟩ := h
  have hold := hstands.based.holds
  have hlo := hstands.based.accepting.log.size_lo
  have hhi := hstands.based.accepting.log.size_hi
  have hnext : nextGeneration w.records.generation = w.records.generation + 1 :=
    Nat.mod_eq_of_lt hg
  rw [checkpointLocked, completes, Prog.wp_bind, Prog.wp_get, collectLiveItems_ok hshows, hnext]
  show completes env _ (publishCheckpoint env _ _ >>= _) _ w
  refine completes_bind (completes_mono (completes_publishCheckpoint (Nat.succ_ne_zero _) hitems
    w) (fun d hd => ?_) (fun _ _ h => h)) (fun _ w₁ h₁ => ?_)
  · rcases hold.publishing (by omega) hfew hitems hg hd with hd | hd
    · exact ⟨_, _, hd⟩
    · exact ⟨_, _, hd⟩
  obtain ⟨d, t, rfl, hd⟩ := h₁
  have hnew : HoldsIn w.records.walSize _ _ (w.onDisk d t).disk _ :=
    hold.published (by omega) hfew hitems hg hd
  have hdir : (w.onDisk d t).disk.wal.get? (w.records.generation + 1) = some .empty := by
    rw [World.onDisk_disk, hd.wal_eq, withWalDir_get?]
    exact congrArg some (hstands.based.ahead _ (Nat.lt_succ_self _))
  have hlog : LogOk (w.onDisk d t) := by
    have haccepting : Accepting (w.onDisk d t) := hstands.based.accepting.congr rfl (fun n => by
      rw [World.onDisk_disk, Disk.walFile?, Disk.walFile?, Disk.dir, Disk.dir, hd.wal_eq,
        withWalDir_getD])
    exact haccepting.log
  rw [← bind_assoc]
  refine completes_bind (completes_reset hlog hnew hdir) (fun _ w₂ h₂ => ?_)
  obtain ⟨t', ix, rfl, hix⟩ := h₂
  have hserves : Serves w.records.walSize (shownBy files entries) (preparedWorld (w.onDisk d t)
      w.records.walSize (w.records.generation + 1) (itemsOf (shownBy files entries)) t' ix) := by
    refine ⟨rfl, _, _, ⟨based_prepared hlo hhi hnew t' ix, ?_⟩, hnew.shown⟩
    have hrecovered := (shownBy_fresh (show kWalHeaderSize ≤ w.records.walSize by omega)
      (itemsOf (shownBy files entries))).2.1
    rw [positionsOf, pagesOf, Disk.dir, hdir, Option.getD_some, hrecovered]
    exact hix
  exact completes_cleanup hserves rfl

/-- The checkpoint behind a write. -/
theorem completes_checkpointIfNeeded (h : Serves walSize v w)
    (hfew : v.size < 2 ^ 30) (hg : w.records.generation + 1 < 2 ^ 64) :
    completes env (DiskHolds walSize v) (checkpointIfNeeded env) (fun _ w' =>
      Serves walSize v w' ∧ w'.isOpen = w.isOpen ∧ w'.fatal = w.fatal) w := by
  rw [checkpointIfNeeded, completes, Prog.wp_bind, Prog.wp_get]
  split
  · exact ⟨h, rfl, rfl⟩
  · exact completes_checkpointLocked h hfew hg

end Checkpoint

/-! ### The log -/

/-- **A record appended to the log** of a store, of which the index knows nothing yet. -/
structure Appended (w : World) (files : WalDir) (entries : List Item) (op : UInt8)
    (key value : ByteView) (pos : Position) (w' : World) (files' : WalDir) : Prop where
  based : Based w' files' entries
  values : Values w' (positionsOf files entries) (shownBy files entries)
  logged : LoggedAt w' pos op key value
  positions : positionsOf files' entries = applyOp op key pos (positionsOf files entries)
  shown : shownBy files' entries = applyOp op key value (shownBy files entries)
  pages : pagesOf files' entries = pagesOf files entries + 1
  walOnly : WalOnly w w'

section Append

variable {env : Env} {w : World} {files : WalDir} {entries : List Item} {op : UInt8}
  {key value : ByteView}

/-- **`Rollover`**, however it ends: the directory holds the map of the log. -/
theorem Based.ends_rollover (h : Based w files entries)
    (hno : w.records.nextFileNo < 2 ^ 33) : endsOn env (fun d => HoldsIn
      w.records.walSize w.records.generation entries d (shownBy files entries)) (rollover env) w := by
  obtain ⟨old, hs, _⟩ := h.accepting.unsealed
  have hold := (h.accepting.log.segment _ _ hs).1.fileNo_eq
  have hnext := h.accepting.log.next
  have hlo := h.accepting.log.size_lo
  have hentries : (w.disk.dir w.records.generation).entries = files.entries := by
    rw [h.opened.dir_eq]
  have hlast : ∀ e ∈ (w.disk.dir w.records.generation).entries, e.1 < w.records.nextFileNo := by
    intro e he
    rw [hentries] at he
    have := (h.opened.last h.accepting.log).1 e he
    omega
  have hnone : files.get? w.records.nextFileNo = none := by
    cases hf : files.get? w.records.nextFileNo with
    | none => rfl
    | some f =>
      rw [hentries] at hlast
      exact absurd (hlast _ ((SortedMap.mem_entries_iff _ _ _).mpr hf)) (lt_irrefl _)
  have hfile : (w.disk.walFile? w.records.generation w.records.nextFileNo).getD .empty =
      (files.get? w.records.nextFileNo).getD .empty := by
    rw [Disk.walFile?, h.opened.dir_eq]
  let D : Disk → Prop := fun d =>
    HoldsIn w.records.walSize w.records.generation entries d (shownBy files entries)
  have hdisk : ∀ d, OpeningFile w.records.walSize w.records.generation w.records.nextFileNo .empty
      w.disk d → D d := fun d h' =>
    h.holds.rolling (by omega) (by omega) hno (hentries ▸ h.files_ne) hlast h'
  have hseal : ∀ fileNo isSealed w', D w'.disk →
      Prog.ends (setSealed fileNo isSealed) (fun w'' => D w''.disk) w' := by
    intro fileNo isSealed w' h'
    refine Prog.ends_seq (I := fun w : World => D w.disk) ?_ (fun seg w'' h'' => h'')
    rw [Prog.ends, Prog.wp, WalSegment.deref]
    cases w'.records.segments.get? fileNo with
    | none => exact h'
    | some seg => exact h'
  have hopen : endsOn env D (openSegment env .append w.records.nextFileNo false) (rolling w old) := by
    have hcompletes : completes env _ (WalSegment.open' env .append (rolling w old).records.generation
        (rolling w old).records.walSize w.records.nextFileNo) _ (rolling w old) :=
      completes_open h.holds.generation?_eq hlo h.accepting.log.size_hi (by omega) hno h.opened.dir
        (f := .empty) (hfile.trans (by rw [hnone]; rfl)).symm (Or.inl rfl)
    refine Prog.wp_bind.mpr (endsOn_seq ((completes_ends hcompletes ?_).mono hdisk)
      (fun seg w' h' => h'))
    rintro _ w' ⟨rfl, t, rfl⟩
    exact openingFile_opened (Or.inl rfl) hlo _
  have hderef : WalSegment.deref w.records.activeFileNo w = .ok old w := by
    rw [WalSegment.deref, hs]
  have hsealed : setSealed w.records.activeFileNo true w =
      .ok () (w.setSegment { old with isSealed := true }) := by
    rw [setSealed, Prog.bind_ok hderef]
    rfl
  rw [rollover, endsOn, Prog.wp_bind, Prog.wp_get]
  simp only [hs, Option.isNone_some, Bool.false_eq_true, if_false]
  rw [Prog.wp_bind, Prog.wp_of_ok hsealed, Prog.wp_bind, Prog.wp_modify]
  refine endsOn_seq (endsOn_attempt hopen) (fun result w₁ h₁ => ?_)
  cases result with
  | error status =>
    exact endsOn_seq (endsOn_of_ends (hseal _ _ _ h₁)) (fun _ w₂ h₂ => Or.inl h₂)
  | ok _ => exact h₁

/-- **`Rollover`** logs nothing; when it is stopped the directory holds the map of the log. -/
theorem Based.completes_rollover (h : Based w files entries)
    (hno : w.records.nextFileNo < 2 ^ 33) :
    completes env (fun d => HoldsIn w.records.walSize w.records.generation entries d
      (shownBy files entries)) (rollover env) (fun _ w' => ∃ files', Logs w files [] w' files') w := by
  obtain ⟨w', files', hrun, hlogs, _⟩ := rollover_logs Env.reliable_survives (fun _ => rfl)
    h.accepting h.opened h.complete hno
  refine completes_mono (completes_follows follows_rollover hrun (h.ends_rollover hno).faults)
    (fun _ h => h) (fun _ w₁ h₁ => ?_)
  rw [h₁.2]
  exact ⟨files', hlogs⟩

/-- Behind such a rollover the directory holds the map still. -/
theorem Based.holds_logs {w' : World} {files' : WalDir} (h : Based w files entries)
    (hlogs : Logs w files [] w' files') : HoldsIn w.records.walSize w.records.generation entries
      w'.disk (shownBy files entries) := by
  have hholds := (h.logs hlogs).holds
  rw [(hlogs.nothing entries).2, hlogs.wrote.walOnly.walSize, hlogs.wrote.walOnly.generation] at hholds
  exact hholds

/-- **One try to append**: done, no room, or killed with the old records in the segment. -/
theorem Based.appending (h : Based w files entries) (hkey : Legal key)
    (hop : op = kWalOpPut ∨ op = kWalOpDelete ∧ value = []) :
    Prog.wp (appendActive env op key value) (fun _ _ => True) (fun fault w' => NoRoom w fault w' ∨
      fault = .killed ∧ Stops env (fun d => HoldsIn w.records.walSize w.records.generation entries d
        (shownBy files entries)) fault w') w := by
  refine (tracks_appendActive op key value).wp (Prog.wp_mono (wp_appendActive Env.reliable_survives
    h.accepting hkey hop) (fun _ _ _ => trivial) (fun _ _ h => Or.inl h))
    (fun _ w' hrun => Or.inr ⟨rfl, ?_⟩)
  by_cases hwhole : ¬ env.WholeFields
  · exact Or.inr ⟨rfl, fun h => hwhole h.wholeFields⟩
  obtain ⟨seg, hs⟩ := h.accepting.log.active
  obtain ⟨f, hf⟩ := h.opened.file hs
  have hfile := (h.opened.images.image _ f hf).2.2
  have hlo : 0 < w.records.walSize := lt_of_lt_of_le (by decide) h.opened.images.size_lo
  have hdir := h.opened.dir_eq
  have hdisk : w.disk.walFile? w.records.generation w.records.activeFileNo = some f := by
    rw [Disk.walFile?, hdir, hf]
  have hused : seg.used = headerUsed f.bytes := (h.opened.segment _ seg f hs hf).2.2
  have hstoring := Prog.wp_run_error
    (killed_append (not_not.mp hwhole) hs hdisk hused hfile.header.used_lo op key value) hrun rfl
  exact Or.inl (h.holds.storing hlo hdisk hfile hstoring)

/-- **A record that fits** is appended to the log; when the append is stopped, the directory holds
the map of the old one. -/
theorem Based.append (h : Based w files entries)
    (hkey : Legal key) (hop : op = kWalOpPut ∨ op = kWalOpDelete ∧ value = [])
    (hno : w.records.nextFileNo < 2 ^ 33)
    (hfit : kWalHeaderSize + recordSize key value ≤ w.records.walSize) :
    completes env (fun d => HoldsIn w.records.walSize w.records.generation entries d
        (shownBy files entries)) (appendOrRollover env op key value)
      (fun pos w' => ∃ files', Appended w files entries op key value pos w' files') w := by
  obtain ⟨x, w', files', hrun, hlogs, his, hend⟩ := appendOrRollover_logs Env.reliable_survives
    (fun _ => rfl) h.accepting h.opened h.complete hkey hop hno hfit
  have hfaults : Prog.wp (appendOrRollover env op key value) (fun _ _ => True) (Stops env fun d =>
      HoldsIn w.records.walSize w.records.generation entries d (shownBy files entries)) w := by
    rw [appendOrRollover, Prog.wp_bind, Prog.wp_attempt]
    refine Prog.wp_mono (h.appending hkey hop) (fun _ _ _ => trivial) ?_
    rintro _ _ (⟨⟨message, rfl⟩, rfl⟩ | ⟨rfl, hstops⟩)
    · show Prog.wp _ _ _ _
      simp only [ne_eq, not_true_eq_false, if_false]
      refine Prog.wp_seq (h.completes_rollover hno) ?_ (fun _ _ h => h.2)
      rintro _ w₁ ⟨files₁, hlogs₁⟩
      refine Prog.wp_mono ((h.logs hlogs₁).appending hkey hop) (fun _ _ _ => trivial) ?_
      rintro _ w₂ (⟨_, rfl⟩ | ⟨rfl, hstops⟩)
      · exact Or.inl (h.holds_logs hlogs₁)
      · rw [(hlogs₁.nothing entries).2, hlogs₁.wrote.walOnly.walSize,
          hlogs₁.wrote.walOnly.generation] at hstops
        exact hstops
    · exact hstops
  refine completes_mono (completes_follows (follows_appendOrRollover op key value) hrun hfaults)
    (fun _ h => h) ?_
  rintro _ _ ⟨rfl, rfl⟩
  refine ⟨files', h.logs hlogs, h.values_logs hlogs, hend.1, ?_, ?_, ?_, hlogs.wrote.walOnly⟩
  · rw [hlogs.positionsOf_eq, applyPosition, his.op_eq, his.key_eq]
  · rw [hlogs.shownBy_eq, applyValue, his.op_eq, his.key_eq, his.value_eq]
  · rw [pagesOf, pagesOf, hlogs.recovered, List.length_append, List.length_singleton, ← add_assoc]

/-- A rollover leaves a store that serves the map still. -/
theorem Stands.serves_logs {w' : World} {files' : WalDir} (h : Stands w files entries)
    (hlogs : Logs w files [] w' files') :
    Serves w.records.walSize (shownBy files entries) w' := by
  obtain ⟨hpositions, hshown⟩ := hlogs.nothing entries
  have hpages : pagesOf files' entries = pagesOf files entries := by
    rw [pagesOf, pagesOf, hlogs.recovered, List.append_nil]
  have hindex : w'.index = w.index := by rw [hlogs.wrote.walOnly.rest]
  refine ⟨hlogs.wrote.walOnly.walSize, files', entries, ⟨h.based.logs hlogs, ?_⟩, hshown⟩
  rw [hpositions, hpages, hindex]
  exact h.index

/-- **A record that fits into no segment** changes no map. -/
theorem Stands.refused (h : Stands w files entries) (hno : w.records.nextFileNo < 2 ^ 33)
    (hfit : w.records.walSize < kWalHeaderSize + recordSize key value) :
    Prog.wp (appendOrRollover env op key value) (fun _ _ => False) (fun fault w' =>
      fault = .status (refusal key value) ∧
        Serves w.records.walSize (shownBy files entries) w' ∧ WalOnly w w' ∨
      StoppedOn env (DiskHolds w.records.walSize (shownBy files entries)) fault w') w := by
  rw [Prog.wp, appendOrRollover_refused_eq h.based.accepting hfit]
  show Prog.wp _ _ _ w
  refine Prog.wp_seq (h.based.completes_rollover hno) ?_
    (fun _ _ h => Or.inr (h.mono fun d hd => ⟨_, _, hd⟩))
  rintro _ w' ⟨files', hlogs⟩
  have hwal : w'.records.walSize = w.records.walSize := hlogs.wrote.walOnly.walSize
  exact (Prog.wp_of_error (appendActive_refused hlogs.wrote.accepting (hwal ▸ hfit))).mpr
    (Or.inl ⟨rfl, h.serves_logs hlogs, hlogs.wrote.walOnly⟩)

/-- **The index of an appended put record.** -/
theorem Appended.put {pos : Position} {w' : World} {files' : WalDir}
    (happended : Appended w files entries kWalOpPut key value pos w' files')
    (h : Stands w files entries) (hlegal : Legal key) : ∃ result ix,
    onIndex (fun records => Minpatricia.put records key pos) w' = .ok (.ok result) (w'.withIndex ix) ∧
      Stands (w'.withIndex ix) files' entries := by
  have hlog := happended.based.accepting.log
  have hindex : w'.index = w.index := by rw [happended.walOnly.rest]
  have hpages := h.based.pages_lt
  obtain ⟨ix, hrun, hix⟩ := h.index.put happended.values.knowsAll hlegal
    (happended.logged.range hlog).2 (happended.logged.resolves hlog).1 (by omega)
  refine ⟨_, ix, onIndex_ok (by rw [hindex]; exact hrun), happended.based.congr rfl rfl, ?_⟩
  rw [happended.positions, happended.pages, applyOp_put]
  exact hix

end Append

/-! ### Answers -/

/-- **The directory holds the map before a call, or the one behind it.** -/
def HoldsEither (walSize : ℕ) (v v' : SortedMap ByteView ByteView) (d : Disk) : Prop :=
  DiskHolds walSize v d ∨ DiskHolds walSize v' d

/-- **How a call returns** that makes `v'` of `v`: with its answer, or with a status for which a call
that has failed is to blame. -/
def Answered {α : Type} (env : Env) (walSize : ℕ) (v v' : SortedMap ByteView ByteView)
    (answer reply : Except Status α) (w : World) : Prop :=
  (reply = answer ∧ Serves walSize v' w ∧ w.isOpen = true ∧ w.fatal = none) ∨
    env.Fails ∧ (∃ status, reply = .error status) ∧ HoldsEither walSize v v' w.disk

section Answered

variable {α : Type} {env : Env} {w w' : World} {walSize : ℕ} {v v' : SortedMap ByteView ByteView}
  {x : StoreM α}

/-- A call that returns a value. -/
theorem completes_answered {a : α} (h : completes env (HoldsEither walSize v v') x (fun b w' =>
      b = a ∧ Serves walSize v' w' ∧ w'.isOpen = true ∧ w'.fatal = none) w) :
    completes env (HoldsEither walSize v v') (Prog.attempt x)
      (Answered env walSize v v' (.ok a)) w :=
  completes_attempt h (fun _ _ h => Or.inl ⟨congrArg Except.ok h.1, h.2⟩)
    (fun hfails status _ hD => Or.inr ⟨hfails, ⟨status, rfl⟩, hD⟩)

/-- A call that returns a status. -/
theorem completes_refused {status : Status} (h : Prog.wp x (fun _ _ => False) (fun fault w' =>
      fault = .status status ∧ Serves walSize v' w' ∧ w'.isOpen = true ∧ w'.fatal = none ∨
      StoppedOn env (HoldsEither walSize v v') fault w') w) :
    completes env (HoldsEither walSize v v') (Prog.attempt x)
      (Answered env walSize v v' (.error status)) w := by
  refine Prog.wp_attempt.mpr (Prog.wp_mono h (fun _ _ h => h.elim) ?_)
  rintro fault w' (⟨rfl, hserves⟩ | ⟨hblamed, hD⟩)
  · exact Or.inl ⟨rfl, hserves⟩
  · cases fault with
    | status status' =>
      exact Or.inr ⟨hblamed.resolve_right (fun h => nomatch h.1), ⟨status', rfl⟩, hD.status⟩
    | undefined => exact ⟨hblamed, hD⟩
    | diverges => exact ⟨hblamed, hD⟩
    | killed => exact ⟨hblamed, hD⟩

/-- A call that returns a status at once. -/
theorem completes_status {status : Status} (hrun : x w = .error (.status status) w)
    (h : Serves walSize v' w) (hopen : w.isOpen = true) (hfatal : w.fatal = none) :
    completes env (HoldsEither walSize v v') (Prog.attempt x)
      (Answered env walSize v v' (.error status)) w :=
  completes_refused ((Prog.wp_of_error hrun).mpr (Or.inl ⟨rfl, h, hopen, hfatal⟩))

end Answered

/-! ### `Put` -/

/-- **The limits of a store**: generations, file numbers and snapshot records last. -/
structure Limits (w : World) (v : SortedMap ByteView ByteView) : Prop where
  generation : w.records.generation + 1 < 2 ^ 64
  files : w.records.nextFileNo < 2 ^ 33
  keys : v.size + 1 < 2 ^ 30

/-- What `Put` returns. -/
def putReply (walSize : ℕ) (key value : ByteView) : Except Status Unit :=
  if ¬ Legal key then .error ⟨.invalidArgument, "key too large"⟩
  else if walSize < kWalHeaderSize + recordSize key value then .error (refusal key value)
  else .ok ()

/-- What `Put` makes of a map. -/
def putMap (walSize : ℕ) (key value : ByteView) (v : SortedMap ByteView ByteView) :
    SortedMap ByteView ByteView :=
  if (putReply walSize key value).isOk then v.insert key value else v

section Put

variable {env : Env} {w : World} {walSize : ℕ} {v : SortedMap ByteView ByteView}
  {key value : ByteView}

theorem putMap_refused {status : Status} (h : putReply walSize key value = .error status) :
    putMap walSize key value v = v := by
  rw [putMap, h]
  rfl

theorem putMap_ok (h : putReply walSize key value = .ok ()) :
    putMap walSize key value v = v.insert key value := by
  rw [putMap, h]
  rfl

/-- `Put` logs the record of a legal key; with the index changed, a checkpoint may be due. -/
theorem put_logged (env : Env) (hcheck : checkOpen w = .ok () w) (hlegal : Legal key) (value : ByteView) :
    ∃ rest : Position → StoreM Unit,
      put env key value w = (appendRecord env key value >>= rest) w ∧
      ∀ {pos : Position} {w₁ w₂ : World} {result : Minpatricia.PutResult},
        onIndex (fun records => Minpatricia.put records key pos) w₁ = .ok (.ok result) w₂ →
        rest pos w₁ = checkpointIfNeeded env w₂ :=
  ⟨_, (Prog.bind_ok hcheck).trans (congrFun (if_neg (Nat.not_lt.mpr hlegal)) w),
    fun hindex => Prog.bind_ok hindex⟩

/-- **`Put`** answers and changes the map as it should, unless a call is to blame; the directory then
holds the map before it or the map behind it. -/
theorem completes_put (h : Serves walSize v w) (hopen : w.isOpen = true)
    (hfatal : w.fatal = none) (hlimits : Limits w v) (key value : ByteView) :
    completes env (HoldsEither walSize v (putMap walSize key value v))
      (Prog.attempt (put env key value)) (Answered env walSize v (putMap walSize key value v)
        (putReply walSize key value)) w := by
  obtain ⟨hg, hno, hkeys⟩ := hlimits
  have hcheck := checkOpen_ok hopen hfatal
  by_cases hlegal : Legal key
  · obtain ⟨rest, hput, hindexed⟩ := put_logged env hcheck hlegal value
    by_cases hfit : walSize < kWalHeaderSize + recordSize key value
    · have hreply : putReply walSize key value = .error (refusal key value) := by
        rw [putReply, if_neg (not_not.mpr hlegal), if_pos hfit]
      rw [putMap_refused hreply, hreply]
      obtain ⟨rfl, files, entries, hstands, rfl⟩ := h
      refine completes_refused ?_
      rw [Prog.wp, hput]
      refine Prog.wp_bind.mpr (Prog.wp_mono (hstands.refused hno hfit) (fun _ _ h => h.elim) ?_)
      rintro fault w' (⟨rfl, hserves, hwal⟩ | hstopped)
      · have hrest := hwal.rest
        refine Or.inl ⟨rfl, hserves, ?_, ?_⟩
        · rw [hrest]
          exact hopen
        · rw [hrest]
          exact hfatal
      · exact Or.inr (hstopped.mono fun d hd => Or.inl hd)
    · have hreply : putReply walSize key value = .ok () := by
        rw [putReply, if_neg (not_not.mpr hlegal), if_neg hfit]
      rw [putMap_ok hreply, hreply]
      obtain ⟨rfl, files, entries, hstands, rfl⟩ := h
      refine completes_answered ?_
      rw [completes, Prog.wp, hput]
      refine completes_bind (completes_mono (hstands.based.append hlegal (Or.inl rfl) hno
        (Nat.not_lt.mp hfit)) (fun d hd => Or.inl ⟨_, _, hd⟩) (fun _ _ h => h)) (fun pos w₁ h₁ => ?_)
      obtain ⟨files₁, happended⟩ := h₁
      obtain ⟨result, ix, hindex, hstands₁⟩ := happended.put hstands hlegal
      have hsize : w₁.records.walSize = w.records.walSize := happended.walOnly.walSize
      have hgeneration : w₁.records.generation = w.records.generation := happended.walOnly.generation
      have hrest := happended.walOnly.rest
      have hserves : Serves w.records.walSize ((shownBy files entries).insert key value)
          (w₁.withIndex ix) := ⟨hsize, files₁, entries, hstands₁, happended.shown⟩
      rw [completes, Prog.wp, hindexed hindex]
      refine completes_mono (completes_checkpointIfNeeded hserves ?_ ?_) (fun d hd => Or.inr hd)
        (fun _ w' h' => ⟨rfl, h'.1, ?_, ?_⟩)
      · exact lt_of_le_of_lt (SortedMap.size_insert_le _ _ _) hkeys
      · rw [World.withIndex_records, hgeneration]
        exact hg
      · rw [h'.2.1, World.withIndex, hrest]
        exact hopen
      · rw [h'.2.2, World.withIndex, hrest]
        exact hfatal
  · have hreply : putReply walSize key value = .error ⟨.invalidArgument, "key too large"⟩ := by
      rw [putReply, if_pos hlegal]
    have hput : put env key value w =
        .error (.status ⟨.invalidArgument, "key too large"⟩) w := by
      rw [put, Prog.bind_ok hcheck, if_pos (Nat.not_le.mp hlegal)]
      rfl
    rw [putMap_refused hreply, hreply]
    exact completes_status hput h hopen hfatal

end Put

/-! ### `Delete` -/

/-- What `Delete` returns. -/
def deleteReply (v : SortedMap ByteView ByteView) (key : ByteView) : Except Status Bool :=
  if Legal key then .ok (v.get? key).isSome else .error keyTooLarge

/-- What `Delete` makes of a map. -/
def deleteMap (key : ByteView) (v : SortedMap ByteView ByteView) : SortedMap ByteView ByteView :=
  if Legal key then v.erase key else v

/-- **The tombstone of every key fits into a segment.** -/
def Deletable (walSize : ℕ) (v : SortedMap ByteView ByteView) : Prop :=
  ∀ key value, v.get? key = some value → kWalHeaderSize + recordSize key [] ≤ walSize

section Delete

variable {env : Env} {w : World} {walSize : ℕ} {v : SortedMap ByteView ByteView}
  {files : WalDir} {entries : List Item} {key value : ByteView}

/-- A call on the index changes no file, however it ends. -/
theorem ends_onIndex {β : Type} (m : (Position → Minpatricia.Result ByteView) → Minpatricia.IndexM β) :
    Prog.ends (onIndex m) (fun w' => w'.disk = w.disk) w := by
  rw [Prog.ends, Prog.wp, onIndex]
  cases m w.key w.index with
  | ok a ix => rfl
  | error fault ix => cases fault <;> rfl

/-- `MarkFatal` returns no value. -/
theorem wp_markFatal {α : Type} (cause : Status) : Prog.wp (markFatal cause : StoreM α)
    (fun _ _ => False) (fun _ w' => w'.disk = w.disk) w := by
  rw [markFatal, Prog.wp_bind, Prog.wp_get]
  cases w.fatal with
  | some status => exact rfl
  | none =>
    simp only
    split
    · exact rfl
    · exact rfl

/-- **The tombstone** for a key that the index has forgotten; when it cannot be logged, the directory
holds the map with the key. -/
theorem Stands.tombstone (h : Stands w files entries) (hlegal : Legal key)
    (hno : w.records.nextFileNo < 2 ^ 33)
    (hfit : kWalHeaderSize + recordSize key [] ≤ w.records.walSize) {ix : Index}
    (hix : IndexFor ix ((positionsOf files entries).erase key) (pagesOf files entries)) :
    completes env (DiskHolds w.records.walSize (shownBy files entries))
      (Prog.attempt (deleteRecord env key)) (fun result w' =>
        (∃ pos', result = .ok pos') ∧ Serves w.records.walSize ((shownBy files entries).erase key) w' ∧
          WalOnly (w.withIndex ix) w' ∨
        env.Fails ∧ (∃ status, result = .error status) ∧
          DiskHolds w.records.walSize (shownBy files entries) w'.disk) (w.withIndex ix) := by
  have hbased : Based (w.withIndex ix) files entries := h.based.congr rfl rfl
  have hop : kWalOpDelete = kWalOpPut ∨ kWalOpDelete = kWalOpDelete ∧ ([] : ByteView) = [] :=
    Or.inr ⟨rfl, rfl⟩
  refine completes_attempt (completes_mono (hbased.append hlegal hop hno hfit)
    (fun d hd => ⟨_, _, hd⟩) (fun _ _ h => h)) (fun pos' w' h' => ?_)
    (fun hfails status w' hD => Or.inr ⟨hfails, ⟨status, rfl⟩, hD⟩)
  obtain ⟨files', happended⟩ := h'
  have hindex : w'.index = ix := by rw [happended.walOnly.rest]; rfl
  refine Or.inl ⟨⟨pos', rfl⟩, ⟨happended.walOnly.walSize, files', entries, ⟨happended.based, ?_⟩,
    happended.shown⟩, happended.walOnly⟩
  rw [happended.positions, happended.pages, hindex]
  exact hix.mono (Nat.le_succ _)

/-- `Delete` of a key of the index, up to the tombstone. -/
theorem delete_found {pos : Position} {ix : Index} (hcheck : checkOpen w = .ok () w)
    (hlegal : Legal key) (hget : w.index.get w.key key = .ok (Minpatricia.getResult (some pos)))
    (hdelete : Minpatricia.delete w.key key w.index =
      .ok (Minpatricia.deleteResult (some pos)) ix) :
    delete env key w = writeTombstone env key pos (w.withIndex ix) := by
  have hfound : (Prog.ofOutcome (fromMinpatricia (.ok (Minpatricia.getResult (some pos)))) :
      StoreM Minpatricia.ProbeResult) w = .ok ⟨pos, true⟩ w := rfl
  have hindex := onIndex_ok (f := fun records => Minpatricia.delete records key) hdelete
  rw [delete, Prog.bind_ok hcheck, Prog.get_bind, hget, Prog.bind_ok hfound]
  simp only [Bool.true_eq_false, if_false]
  rw [if_neg (Nat.not_lt.mpr hlegal), Prog.bind_ok hindex]
  simp only [Minpatricia.deleteResult, Bool.true_eq_false, ne_eq, not_true_eq_false, or_self,
    if_false]

/-- **`writeTombstone`** removes the key, or restores it where a call has failed. -/
theorem Stands.completes_writeTombstone (h : Stands w files entries)
    (hlegal : Legal key) (hlimits : Limits w (shownBy files entries))
    (hfit : kWalHeaderSize + recordSize key [] ≤ w.records.walSize)
    (hv : (shownBy files entries).get? key = some value) {ix : Index}
    (hix : IndexFor ix ((positionsOf files entries).erase key) (pagesOf files entries))
    (pos : Position) :
    completes env (HoldsEither w.records.walSize (shownBy files entries)
        ((shownBy files entries).erase key)) (writeTombstone env key pos) (fun b w' => b = true ∧
      Serves w.records.walSize ((shownBy files entries).erase key) w' ∧ w'.isOpen = w.isOpen ∧
        w'.fatal = w.fatal) (w.withIndex ix) := by
  obtain ⟨hg, hno, hkeys⟩ := hlimits
  refine completes_bind (completes_mono (h.tombstone hlegal hno hfit hix)
    (fun d hd => Or.inl hd) (fun _ _ h => h)) (fun result w₁ h₁ => ?_)
  rcases h₁ with ⟨⟨pos', rfl⟩, hserves, hwal⟩ | ⟨hfails, ⟨status, rfl⟩, hholds⟩
  · have hrest := hwal.rest
    have hsize := SortedMap.size_erase_of_some hv
    have hgeneration : w₁.records.generation = w.records.generation := hwal.generation
    refine completes_bind (completes_mono (completes_checkpointIfNeeded hserves (by omega) (by
      rw [hgeneration]
      exact hg)) (fun d hd => Or.inr hd) (fun _ _ h => h)) (fun _ w' h' => ⟨rfl, h'.1, ?_, ?_⟩)
    · rw [h'.2.1, hrest]
      rfl
    · rw [h'.2.2, hrest]
      rfl
  · -- the key is put back, or the store is fatal: no file is touched
    refine Prog.wp_seq (Q := fun _ w' => w'.disk = w₁.disk) (Prog.wp_mono (ends_onIndex _)
      (fun _ _ h => h) (fun _ w' h' => ⟨Or.inl hfails, Or.inl (Or.inl (h' ▸ hholds))⟩))
      (fun restore w₂ h₂ => ?_)
      (fun _ _ h => h)
    cases restore with
    | ok _ => exact ⟨Or.inl hfails, Or.inl (Or.inl (h₂ ▸ hholds))⟩
    | error code =>
      refine Prog.wp_mono (wp_markFatal _) (fun _ _ h => h.elim)
        (fun _ w' h' => ⟨Or.inl hfails, Or.inl (Or.inl ?_)⟩)
      rw [h', h₂]
      exact hholds

/-- **`Delete`** answers and changes the map as it should, unless a call is to blame; the directory
then holds the map before it or the map behind it. -/
theorem completes_delete (h : Serves walSize v w) (hopen : w.isOpen = true)
    (hfatal : w.fatal = none) (hlimits : Limits w v) (hdeletable : Deletable walSize v)
    (key : ByteView) :
    completes env (HoldsEither walSize v (deleteMap key v)) (Prog.attempt (delete env key))
      (Answered env walSize v (deleteMap key v) (deleteReply v key)) w := by
  have hcheck := checkOpen_ok hopen hfatal
  by_cases hlegal : Legal key
  · rw [deleteReply, deleteMap, if_pos hlegal, if_pos hlegal]
    obtain ⟨rfl, files, entries, hstands, rfl⟩ := h
    have hvalues := hstands.based.values
    have hget := hstands.index.get hvalues.knowsAll hlegal
    refine completes_answered ?_
    cases hm : (positionsOf files entries).get? key with
    | none =>
      have hv := hvalues.get_none hm
      have hrun : delete env key w = .ok false w := by
        rw [delete, Prog.bind_ok hcheck, Prog.get_bind, hget, hm]
        rfl
      refine (Prog.wp_of_ok hrun).mpr ⟨?_, ?_, hopen, hfatal⟩
      · rw [hv]
        rfl
      · rw [SortedMap.erase_eq_self hv]
        exact hstands.serves
    | some pos =>
      obtain ⟨value, hv, _⟩ := hvalues.get_some hm
      obtain ⟨ix, hdelete, hix⟩ := hstands.index.delete hvalues.knowsAll hlegal
      rw [completes, Prog.wp, delete_found hcheck hlegal (hget.trans (by rw [hm]))
        (hdelete.trans (by rw [hm]))]
      refine completes_mono (hstands.completes_writeTombstone hlegal hlimits
        (hdeletable key value hv) hv hix pos) (fun _ hd => hd) (fun b w' h' => ?_)
      obtain ⟨rfl, hserves, hisOpen, hnotFatal⟩ := h'
      refine ⟨?_, hserves, hisOpen.trans hopen, hnotFatal.trans hfatal⟩
      rw [hv]
      rfl
  · have hget : w.index.get w.key key = .error (.status .keyTooLarge) := by
      rw [Index.get, Index.probe, checkKeySize_refused hlegal]
      rfl
    have hrun : delete env key w = .error (.status keyTooLarge) w := by
      rw [delete, Prog.bind_ok hcheck, Prog.get_bind, hget]
      rfl
    rw [deleteReply, deleteMap, if_neg hlegal, if_neg hlegal]
    exact completes_status hrun h hopen hfatal

end Delete

/-! ### `Close` -/

/-- **`Close`** leaves a directory that holds the map, whatever becomes of its calls. -/
theorem completes_close {env : Env} {w : World} {walSize : ℕ} {v : SortedMap ByteView ByteView}
    (h : Serves walSize v w) (hopen : w.isOpen = true) (hlimits : Limits w v) :
    completes env (DiskHolds walSize v) (close env)
      (fun _ w' => w'.isOpen = false ∧ DiskHolds walSize v w'.disk) w := by
  obtain ⟨hg, _, hkeys⟩ := hlimits
  have hcheckpoint : completes env (DiskHolds walSize v)
      (if w.syncOnClose = true then checkpointLocked env else pure ())
      (fun _ w' => DiskHolds walSize v w'.disk) w := by
    split
    · exact completes_mono (completes_checkpointLocked h (by omega) hg) (fun _ h => h)
        (fun _ _ h => h.1.holds)
    · exact h.holds
  rw [close, completes, Prog.wp_bind, Prog.wp_get, if_neg (by rw [hopen]; exact Bool.noConfusion)]
  refine completes_bind (Q := fun r w' => (r = .ok () ∨ env.Fails) ∧ DiskHolds walSize v w'.disk)
    (completes_attempt hcheckpoint (fun _ _ h => ⟨Or.inl rfl, h⟩)
      (fun hfails _ _ hd => ⟨Or.inr hfails, hd⟩)) (fun r w₁ h₁ => ?_)
  obtain ⟨hr, hholds⟩ := h₁
  rw [completes, Prog.wp_bind, Prog.wp_modify]
  have hclose : completes env (fun d => d = w₁.disk) (closeRecords env .close w.syncOnClose) _
      { w₁ with isOpen := false } := completes_closeRecords w.syncOnClose
  refine completes_bind (Q := fun r w' => (r = .ok () ∧ w'.isOpen = false ∨
      env.Fails ∧ ∃ status, r = .error status) ∧ DiskHolds walSize v w'.disk)
    (completes_attempt (completes_mono hclose (fun d hd => hd ▸ hholds) (fun _ _ h => h))
      (fun _ w' h' => ?_) (fun hfails status _ hd => ⟨Or.inr ⟨hfails, status, rfl⟩, hd⟩))
    (fun r' w₂ h₂ => ?_)
  · obtain ⟨t, rfl⟩ := h'
    exact ⟨Or.inl ⟨rfl, rfl⟩, hholds⟩
  · obtain ⟨hr', hholds'⟩ := h₂
    have hstopped : env.Fails → ∀ fault, StoppedOn env (DiskHolds walSize v) fault w₂ :=
      fun hfails _ => ⟨Or.inl hfails, Or.inl hholds'⟩
    cases r with
    | error status => exact hstopped (hr.resolve_left (by simp)) _
    | ok _ =>
      cases r' with
      | error status => exact hstopped (hr'.resolve_left (by simp)).1 _
      | ok _ => exact ⟨(hr'.resolve_right (by simp)).2, hholds'⟩

end MinweightStore.Store
