import MinweightStore.Store.Policies

/-!
# Point-in-time recovery

Point-in-time recovery rebuilds the longest valid prefix of the log and leaves a directory that
holds nothing else.

* `Settled` — the segments of a complete directory over a snapshot, with the index they stand for;
* `pointInTime_settled` — point-in-time recovery ends in such a state;
* `Settled.reopen` — which any policy opens again as it is;
* `StoppedAt` — the segments after a recovery that stopped at an invalid record;
* `pointInTime_longest_prefix` — all of this for one recovery.
-/

namespace MinweightStore.Store

open Minpatricia (ByteView Position Index kMaxKeySize KnowsAll)
open ValidPrefix

/-! ### Complete directories -/

/-- The map of positions of a directory over a snapshot. -/
def positionsOf (files : WalDir) (entries : List Item) : SortedMap ByteView Position :=
  (dirRecovered files).foldl applyPosition (snapshotMap 1 entries .empty)

/-- The map of values of a directory over a snapshot. -/
def shownBy (files : WalDir) (entries : List Item) : SortedMap ByteView ByteView :=
  (dirRecovered files).foldl applyValue (valuesOf entries)

/-- **A settled store**: its segments are the files of a complete directory, and its index stands
for their records over the snapshot. -/
structure Settled (w : World) (files : WalDir) (entries : List Item) : Prop where
  opened : Opened w files
  complete : AllComplete (dirPieces files)
  loadable : LoadableItems entries
  snapshot : w.records.snapshotRecords = .dummy :: entries.map Item.owned
  index : ∃ pages, IndexFor w.index (positionsOf files entries) pages

section Settled

variable {w : World} {files : WalDir} {entries : List Item}

/-- A settled store shows its records over its snapshot. -/
theorem Settled.shows (h : Settled w files entries) :
    ∃ pages, Shows w (shownBy files entries) pages := by
  obtain ⟨pages, hix⟩ := h.index
  exact ⟨pages, h.opened.shows h.loadable.2 h.snapshot hix⟩

/-- **A settled store is opened again as it is**, under any policy. -/
theorem Settled.reopen (h : Settled w files entries) (hne : files.entries ≠ [])
    (hg : w.records.generation ≠ 0) : ∃ w' ix',
    prepare .reliable w.records.walSize w.records.generation entries (World.boot w.disk) =
      .ok () w' ∧
    w'.disk = w.disk ∧ Opened w' files ∧ Settled (w'.withIndex ix') files entries ∧
    ∀ env policy, replayAll env policy w' = .ok () (w'.withIndex ix') := by
  have himages := h.opened.images
  have hdir : (World.boot w.disk).disk.dir w.records.generation = files := h.opened.dir_eq
  have hopenable : OpenableDir ((World.boot w.disk).disk.dir w.records.generation)
      w.records.walSize := hdir ▸ himages.openable
  obtain ⟨t, ix, hrun, hix⟩ : ∃ t ix, prepare .reliable w.records.walSize w.records.generation
      entries (World.boot w.disk) = .ok () (preparedWorld (World.boot w.disk) w.records.walSize
        w.records.generation entries t ix) ∧ _ :=
    prepare_ok (fun _ => rfl) Env.reliable_survives.stores himages.size_lo himages.size_hi hg hopenable h.loadable
  have hopened : Opened (preparedWorld (World.boot w.disk) w.records.walSize w.records.generation
      entries t ix) files := by
    rw [← himages.openedDir_eq hne, ← hdir]
    exact opened_prepared himages.size_lo himages.size_hi hopenable t ix
  have hcount := h.loadable.2
  obtain ⟨ix', happlied, hcases⟩ := replay_opened hopened hix (by omega)
  rcases hcases with ⟨_, hreplay⟩ | ⟨id, f, pre, post, seg, hstop, _⟩
  · refine ⟨_, ix', hrun, ?_, hopened, ⟨hopened.withIndex ix', h.complete, h.loadable, rfl, ?_⟩,
      hreplay⟩
    · show w.disk.setDir w.records.generation (openedDir (w.disk.dir w.records.generation)
        w.records.walSize) = w.disk
      rw [h.opened.dir_eq, himages.openedDir_eq hne, Disk.setDir_self h.opened.dir]
    · have hindex := happlied.indexed.1
      rw [hopened.recovered_eq] at hindex
      exact ⟨_, hindex⟩
  · exact absurd h.complete hstop.not_complete

end Settled

/-! ### A recovery that stops -/

/-- Where records end. -/
def endOfRecords (l : List (ℕ × WalRecord)) : ℕ :=
  (l.getLast?.map fun x => x.2.endOffset).getD kWalHeaderSize

/-- A scan stops behind its last valid record. -/
theorem stop_eq_endOfRecords (id : ℕ) (f : WalFile) :
    f.stop = endOfRecords (filePiece id f).records := by
  refine scanFrom_stop_eq _ _ (fun o r next h => ?_)
  obtain ⟨_, rfl, rfl⟩ := readAt_eq_some.mp h
  rfl

/-- **The segments after a recovery that stopped** in a piece of the log: its segment ends behind
its last valid record and is the active one, and there are no later ones. -/
structure StoppedAt (w : World) (p : Piece ℕ (ℕ × WalRecord)) : Prop where
  truncated : ∃ seg, w.records.segments.get? p.id = some seg ∧
    seg.used = endOfRecords p.records ∧ seg.isSealed = false
  written : ∃ f, w.disk.walFile? w.records.generation p.id = some f ∧
    headerUsed f.bytes = endOfRecords p.records
  active : w.records.activeFileNo = p.id
  next : w.records.nextFileNo = p.id + 1
  others : ∀ id seg, id ≠ p.id → w.records.segments.get? id = some seg → seg.isSealed = true
  gone : ∀ id, p.id < id → w.records.segments.get? id = none ∧
    w.disk.walFile? w.records.generation id = none

section Stopped

variable {w : World} {files : WalDir} {id : ℕ} {f : WalFile} {pre post : List (ℕ × WalFile)}
  {seg : WalSegment}

theorem stoppedAt_rearranged (h : Opened w files) (hstop : StopsAt files id f pre post)
    (hs : w.records.segments.get? id = some seg) (t : ℕ) :
    StoppedAt (rearranged w files id f seg (post.map Prod.fst) (post.map Prod.fst) t)
      (filePiece id f) := by
  have hopened := opened_rearranged h hstop hs t
  have hcut := (h.images.image id f hstop.get?).2.2.cut h.images.size_hi
  have hfiles : ∀ i, (cutDir files id f (post.map Prod.fst)).get? i =
      if i ∈ post.map Prod.fst then none else if i = id then some f.cut else files.get? i := by
    intro i
    rw [cutDir, SortedMap.get?_eraseAll, SortedMap.get?_insert]
  have hgone : ∀ i, id < i → (cutDir files id f (post.map Prod.fst)).get? i = none := by
    intro i hi
    rw [hfiles]
    split
    · rfl
    · rename_i hmem
      rw [if_neg (by omega)]
      cases hf : files.get? i with
      | none => rfl
      | some f' =>
        have he := (SortedMap.mem_entries_iff _ _ _).mpr hf
        rw [hstop.split, List.mem_append, List.mem_append, List.mem_singleton] at he
        rcases he with (he | he) | he
        · exact absurd (hstop.order.1 _ he) (by simp only; omega)
        · exact absurd (Prod.mk.inj he).1 (by omega)
        · exact absurd (List.mem_map_of_mem (f := Prod.fst) he) hmem
  have hfile : ∀ i, (rearranged w files id f seg (post.map Prod.fst) (post.map Prod.fst)
      t).disk.walFile? (rearranged w files id f seg (post.map Prod.fst) (post.map Prod.fst)
      t).records.generation i = (cutDir files id f (post.map Prod.fst)).get? i := by
    intro i
    rw [Disk.walFile?, hopened.dir_eq]
  refine ⟨⟨_, rearranged_cut hstop.not_behind, stop_eq_endOfRecords id f, by simp⟩,
    ⟨f.cut, ?_, hcut.2.trans (stop_eq_endOfRecords id f)⟩, rfl, rfl, fun i s hne hi => ?_,
    fun i hi => ⟨?_, ?_⟩⟩
  · exact (hfile id).trans (by rw [hfiles, if_neg hstop.not_behind, if_pos rfl])
  · rw [rearranged_segment, Option.map_eq_some_iff] at hi
    obtain ⟨s', _, rfl⟩ := hi
    exact decide_eq_true hne
  · have hnone := hgone i hi
    have hiff := hopened.segments i
    rw [hnone] at hiff
    exact Option.not_isSome_iff_eq_none.mp (fun hsome => absurd (hiff.mp hsome) (by simp))
  · exact (hfile i).trans (hgone i hi)

end Stopped

/-! ### The recovery -/

section Recovery

variable {w : World} {files : WalDir} {entries : List Item} {pages : ℕ} {env : Env}

/-- **Point-in-time recovery ends in a settled store** that shows the valid prefix. -/
theorem pointInTime_settled (h : Opened w files) (hloadable : LoadableItems entries)
    (hrec : w.records.snapshotRecords = .dummy :: entries.map Item.owned)
    (hix : Indexed w w.index (snapshotMap 1 entries .empty) pages) (hpages : pages ≤ 2 ^ 62)
    (henv : env.Survives) (hunlink : env.ReliableAt .replay) : ∃ w' files',
    replayAll env .pointInTime w = .ok () w' ∧
    applyRecords w.recovered w = .ok () (w.withIndex w'.index) ∧
    Settled w' files' entries ∧ dirRecovered files' = dirRecovered files ∧
    (files.entries ≠ [] → files'.entries ≠ []) ∧
    w'.records.generation = w.records.generation ∧ w'.records.walSize = w.records.walSize ∧
    (∀ p, firstIncomplete (dirPieces files) = some p → StoppedAt w' p) ∧
    (AllComplete (dirPieces files) → w' = w.withIndex w'.index) := by
  obtain ⟨ix', happlied, ⟨hcomplete, hrun⟩ | ⟨id, f, pre, post, seg, hstop, hs, hrun⟩⟩ :=
    replay_opened h hix hpages
  · have hindex := happlied.indexed.1
    rw [h.recovered_eq] at hindex
    refine ⟨_, files, hrun env .pointInTime, happlied.run,
      ⟨h.withIndex ix', hcomplete, hloadable, hrec, _, hindex⟩, rfl, id, rfl, rfl, fun p hp => ?_,
      fun _ => rfl⟩
    rw [firstIncomplete_eq_none.mpr hcomplete] at hp
    exact absurd hp (by simp)
  · have hopened := h.withIndex ix'
    have hrest := rearrange_survives henv hopened hstop hs
    rw [unlinked_reliable hunlink] at hrest
    obtain ⟨hsame, hcomplete⟩ := hstop.complete_cut h.images
    have hindex := happlied.indexed.1
    rw [h.recovered_eq, ← hsame] at hindex
    refine ⟨_, _, (hrun env).2.trans hrest, happlied.run,
      ⟨opened_rearranged hopened hstop hs _, hcomplete, hloadable, hrec, _, hindex⟩, hsame,
      fun _ hnil => ?_, rfl, rfl, fun p hp => ?_, fun hall => ?_⟩
    · have hfile : (cutDir files id f (post.map Prod.fst)).get? id = some f.cut := by
        rw [cutDir, SortedMap.get?_eraseAll, if_neg hstop.not_behind, SortedMap.get?_insert,
          if_pos rfl]
      have hmem := (SortedMap.mem_entries_iff _ _ _).mpr hfile
      rw [hnil] at hmem
      exact absurd hmem List.not_mem_nil
    · rw [hstop.first] at hp
      rw [← Option.some.inj hp]
      exact stoppedAt_rearranged hopened hstop hs _
    · exact absurd hall hstop.not_complete

end Recovery

section Run

variable {d : Disk} {walSize generation : ℕ} {entries : List Item} {w : World} {env : Env}

/-- **One recovery of a set of images.** -/
theorem pointInTime_run (himages : Images (d.dir generation) walSize)
    (hprepare : prepare .reliable walSize generation entries (World.boot d) = .ok () w)
    (henv : env.Survives) (hunlink : env.ReliableAt .replay) : ∃ w' files',
    replayAll env .pointInTime w = .ok () w' ∧
    applyRecords (dirRecovered (d.dir generation)) w = .ok () (w.withIndex w'.index) ∧
    Settled w' files' entries ∧ dirRecovered files' = dirRecovered (d.dir generation) ∧
    files'.entries ≠ [] ∧ w'.records.generation = generation ∧ w'.records.walSize = walSize ∧
    (∀ p, firstIncomplete (dirPieces (d.dir generation)) = some p → StoppedAt w' p) ∧
    (firstIncomplete (dirPieces (d.dir generation)) = none → w' = w.withIndex w'.index) := by
  obtain ⟨hg, hentries, t, ix, rfl, hix, hopened⟩ := prepare_inv himages hprepare
  have hcount := hentries.2
  obtain ⟨w', files', hrun, happlied, hsettled, hrec, hne, hgen, hsize, hstop, hnone⟩ :=
    pointInTime_settled hopened hentries rfl hix (by omega) henv hunlink
  have hsame := himages.dirPieces_openedDir
  have hdir : (World.boot d).disk.dir generation = d.dir generation := rfl
  rw [hdir] at hopened hrec hne hstop hnone
  rw [hopened.recovered_eq, hsame.1] at happlied
  rw [hsame.1] at hrec
  rw [hsame.2] at hstop
  rw [← firstIncomplete_eq_none, hsame.2] at hnone
  refine ⟨w', files', hrun, happlied, hsettled, hrec, hne ?_, hgen, hsize, hstop, hnone⟩
  rw [openedDir, initialDir]
  split
  · exact List.cons_ne_nil _ _
  · rename_i hempty
    intro hnil
    exact hempty (List.isEmpty_iff.mpr (List.map_eq_nil_iff.mp hnil))

/-- **Point-in-time recovery rebuilds exactly the longest valid prefix** of a set of segment
images.  It applies their records up to the first invalid one, reads nothing behind a used offset,
ends the log where it stopped, and leaves a directory that is recovered the same way again. -/
theorem pointInTime_longest_prefix (himages : Images (d.dir generation) walSize)
    (hprepare : prepare .reliable walSize generation entries (World.boot d) = .ok () w)
    (henv : env.Survives) (hunlink : env.ReliableAt .replay) : ∃ w',
    replayAll env .pointInTime w = .ok () w' ∧
    applyRecords (dirRecovered (d.dir generation)) w = .ok () (w.withIndex w'.index) ∧
    (∃ pages, IndexFor w'.index (positionsOf (d.dir generation) entries) pages) ∧
    (∀ p, firstIncomplete (dirPieces (d.dir generation)) = some p → StoppedAt w' p) ∧
    (firstIncomplete (dirPieces (d.dir generation)) = none → w' = w.withIndex w'.index) ∧
    (∀ d' w₁, Images (d'.dir generation) walSize →
      AgreeBelowUsed (d.dir generation) (d'.dir generation) →
      prepare .reliable walSize generation entries (World.boot d') = .ok () w₁ →
      ∃ w₁', replayAll env .pointInTime w₁ = .ok () w₁' ∧
        applyRecords (dirRecovered (d.dir generation)) w₁ = .ok () (w₁.withIndex w₁'.index)) ∧
    ∀ env' policy, ∃ w₂ w₂', prepare .reliable walSize generation entries (World.boot w'.disk) =
        .ok () w₂ ∧
      w₂.recovered = dirRecovered (d.dir generation) ∧
      replayAll env' policy w₂ = .ok () w₂' ∧
      w₂'.records = w₂.records ∧ w₂'.disk = w'.disk ∧
      ∃ pages, IndexFor w₂'.index (positionsOf (d.dir generation) entries) pages := by
  obtain ⟨hg, _⟩ := prepare_inv himages hprepare
  obtain ⟨w', files', hrun, happlied, hsettled, hrec, hne, rfl, rfl, hstop, hnone⟩ :=
    pointInTime_run himages hprepare henv hunlink
  have hpositions : positionsOf files' entries = positionsOf (d.dir w'.records.generation) entries := by
    rw [positionsOf, positionsOf, hrec]
  refine ⟨w', hrun, happlied, hpositions ▸ hsettled.index, hstop, hnone, ?_, fun env' policy => ?_⟩
  · intro d' w₁ himages' hagree hprepare'
    obtain ⟨w₁', _, hrun', happlied', _⟩ := pointInTime_run himages' hprepare' henv hunlink
    rw [dirRecovered, dirPieces_congr hagree] at happlied'
    exact ⟨w₁', hrun', happlied'⟩
  · obtain ⟨w₂, ix', hprepare', hdisk, hopened, hagain, hreplay⟩ := hsettled.reopen hne hg
    refine ⟨w₂, _, hprepare', ?_, hreplay env' policy, rfl, hdisk, ?_⟩
    · rw [hopened.recovered_eq, hrec]
    · exact hpositions ▸ hagain.index

end Run

/-- A recovery that stops in the second of three segments. -/
theorem pointInTime_longest_prefix_damaged : ∃ w w',
    prepare .reliable 8192 1 [] (World.boot damagedDisk) = .ok () w ∧
    replayAll .reliable .pointInTime w = .ok () w' ∧
    applyRecords [(1, firstRecord 1), (2, firstRecord 2)] w = .ok () (w.withIndex w'.index) ∧
    StoppedAt w' ⟨2, [firstRecord 2], false⟩ := by
  obtain ⟨w, hrun, _⟩ := prepare_damagedDisk
  obtain ⟨w', hreplay, happlied, _, hstop, _⟩ :=
    pointInTime_longest_prefix images_damagedDisk hrun Env.reliable_survives (fun _ => rfl)
  rw [dirRecovered, dirPieces_damagedDisk] at happlied
  exact ⟨w, w', hrun, hreplay, happlied, hstop _ (by rw [dirPieces_damagedDisk]; rfl)⟩

end MinweightStore.Store
