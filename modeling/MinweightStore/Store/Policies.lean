import MinweightStore.Store.Appending

/-!
# The two replay policies

Strict and point-in-time recovery apply the same records.  They differ in what they do at the first
invalid one.

* `replay_opened` — `ReplayAll` on the segments of a directory, under either policy;
* `prepare_inv` — what a successful preparation says about its input;
* `replay_policies_agree` — the two policies side by side.
-/

namespace MinweightStore.Store

open Minpatricia (ByteView Position Index kMaxKeySize KnowsAll)
open ValidPrefix

/-! ### `ReplayAll` on a directory -/

section Replay

variable {w : World} {files : WalDir} {m : SortedMap ByteView Position} {pages : ℕ}

/-- **`ReplayAll` on the segments of a directory**: the valid prefix is applied; then nothing else
is done, or the policies part. -/
theorem replay_opened (h : Opened w files) (hix : Indexed w w.index m pages)
    (hpages : pages ≤ 2 ^ 62) : ∃ ix', Applied w w.recovered w.index ix' m pages ∧
    ((AllComplete (dirPieces files) ∧
      ∀ env policy, replayAll env policy w = .ok () (w.withIndex ix')) ∨
    ∃ id f pre post seg, StopsAt files id f pre post ∧
      w.records.segments.get? id = some seg ∧ ∀ env,
      replayAll env .strict w = .error (.status (rejection f.bytes (headerUsed f.bytes) f.stop))
        (w.withIndex ix') ∧
      replayAll env .pointInTime w =
        rearrange env (w.behind id) id f.stop (w.withIndex ix')) := by
  have hok := h.segmentsOk
  cases hfirst : firstIncomplete w.pieces with
  | none =>
    have hcomplete := firstIncomplete_eq_none.mp hfirst
    obtain ⟨ix', happlied, hrun⟩ := replayAll_complete hok hcomplete hix hpages
    exact ⟨ix', happlied, Or.inl ⟨h.pieces_eq ▸ hcomplete, hrun⟩⟩
  | some p =>
    obtain ⟨seg, ix', hs, happlied, hrun⟩ := replayAll_stop hok hfirst hix hpages
    rw [h.pieces_eq] at hfirst
    obtain ⟨id, f, pre, post, hstop, rfl⟩ := exists_stopsAt hfirst
    have hs' : w.records.segments.get? id = some seg := hs
    have hused := (h.segment id seg f hs' hstop.get?).2.2
    have hmap := h.mapping_eq hstop.get?
    refine ⟨ix', happlied, Or.inr ⟨id, f, pre, post, seg, hstop, hs', fun env => ?_⟩⟩
    have hrun' := hrun env
    have hid : (filePiece id f).id = id := rfl
    rw [hid, hmap, hused] at hrun'
    exact hrun'

/-- A rejection is a corrupt WAL. -/
theorem rejection_code (m : Mapping) (used offset : ℕ) :
    ∃ message, rejection m used offset = corruptWal message := by
  rcases recordAtOffset_cases m used offset true with ⟨_, hrec⟩ | ⟨_, message, hrec⟩
  · exact ⟨_, by rw [rejection, hrec]⟩
  · exact ⟨message, by rw [rejection, hrec]; rfl⟩

end Replay

/-! ### The preparation, read backwards -/

section Inverse

variable {w w' : World} {walSize generation : ℕ} {entries : List Item}

/-- **A preparation that succeeds** on a set of images. -/
theorem prepare_inv (himages : Images (w.disk.dir generation) walSize)
    (h : prepare .reliable walSize generation entries w = .ok () w') :
    generation ≠ 0 ∧ LoadableItems entries ∧ ∃ t ix,
      w' = preparedWorld w walSize generation entries t ix ∧
      Indexed w' ix (snapshotMap 1 entries .empty) (1 + entries.length) ∧
      Opened w' (openedDir (w.disk.dir generation) walSize) := by
  have hsite : Env.reliable.ReliableAt .openStore := fun _ => rfl
  have hmap : Env.reliable.Stores := Env.reliable_survives.stores
  have hlo := himages.size_lo
  have hhi := himages.size_hi
  have hg : generation ≠ 0 := by
    rintro rfl
    have hfail : openRecords .reliable walSize 0 w =
        .error (.status (corruptManifest "invalid WAL generation")) w := by
      rw [openRecords, if_neg (by omega), if_pos rfl]
      rfl
    rw [prepare, Prog.bind_error hfail] at h
    exact absurd h (by simp)
  have hentries : LoadableItems entries := by
    obtain ⟨t, hrecords⟩ := openRecords_ok hsite hmap hlo hhi hg himages.openable
    obtain ⟨empty, hnew, hempty⟩ := newIndex_ok (w := { w with
      disk := w.disk.setDir generation (openedDir (w.disk.dir generation) walSize)
      clock := t
      records := openedRecords walSize generation (w.disk.dir generation) }) rfl
    rcases loadSnapshotRecords_cases entries hempty with ⟨hkeys, hcount⟩ | ⟨status, w₁, hfail⟩
    · have hcount' : 1 + entries.length ≤ 2 ^ 30 := hcount
      exact ⟨hkeys, by omega⟩
    · rw [prepare, Prog.bind_ok hrecords, Prog.bind_ok hnew, Prog.bind_error hfail] at h
      exact absurd h (by simp)
  obtain ⟨t, ix, hrun, hix⟩ := prepare_ok hsite hmap hlo hhi hg himages.openable hentries
  rw [hrun] at h
  obtain rfl := (EStateM.Result.ok.inj h).2
  exact ⟨hg, hentries, t, ix, rfl, hix, opened_prepared hlo hhi himages.openable t ix⟩

end Inverse

/-! ### Side by side -/

/-- No segment has been truncated. -/
def TruncatesNone (w w' : World) : Prop :=
  ∀ id seg seg', w.records.segments.get? id = some seg →
    w'.records.segments.get? id = some seg' → seg'.used = seg.used

/-- **The two policies agree.**  Point-in-time recovery applies the valid prefix of the records;
strict recovery succeeds if and only if point-in-time recovery truncates nothing, and then both end
in the same state.  Otherwise strict recovery has applied the same records, and has changed no
segment and no file. -/
theorem replay_policies_agree {d : Disk} {walSize generation : ℕ} {entries : List Item} {w : World}
    (himages : Images (d.dir generation) walSize)
    (hprepare : prepare .reliable walSize generation entries (World.boot d) = .ok () w)
    {env : Env} (henv : env.Survives) : ∃ w',
    replayAll env .pointInTime w = .ok () w' ∧
    applyRecords w.recovered w = .ok () (w.withIndex w'.index) ∧
    ((∃ w'', replayAll env .strict w = .ok () w'') ↔ TruncatesNone w w') ∧
    (∀ w'', replayAll env .strict w = .ok () w'' → w'' = w') ∧
    ∀ fault w'', replayAll env .strict w = .error fault w'' →
      (∃ message, fault = .status (corruptWal message)) ∧ w''.index = w'.index ∧
      w''.records = w.records ∧ w''.disk = w.disk := by
  obtain ⟨_, hentries, t, ix, rfl, hix, hopened⟩ := prepare_inv himages hprepare
  have hcount := hentries.2
  obtain ⟨ix', happlied, ⟨_, hrun⟩ | ⟨id, f, pre, post, seg, hstop, hs, hrun⟩⟩ :=
    replay_opened hopened hix (by omega)
  · refine ⟨_, hrun env .pointInTime, happlied.run, ⟨fun _ i s s' hi hi' => ?_, fun _ =>
      ⟨_, hrun env .strict⟩⟩, fun w'' h => ?_, fun fault w'' h => ?_⟩
    · rw [World.withIndex_records, hi] at hi'
      rw [Option.some.inj hi']
    · rw [hrun] at h
      exact (EStateM.Result.ok.inj h).2.symm
    · rw [hrun] at h
      exact absurd h (by simp)
  · obtain ⟨hstrict, hpit⟩ := hrun env
    have hrest := rearrange_survives henv (hopened.withIndex ix') hstop hs
    refine ⟨_, hpit.trans hrest, happlied.run, ⟨fun ⟨w'', h⟩ => ?_, fun hnone => ?_⟩,
      fun w'' h => ?_, fun fault w'' h => ?_⟩
    · rw [hstrict] at h
      exact absurd h (by simp)
    · -- the segment of the stop is kept, with another used offset
      have hsame : f.stop = seg.used := hnone id seg _ hs (rearranged_cut hstop.not_behind)
      have hused := (hopened.segment id seg f hs hstop.get?).2.2
      exact absurd (hsame.trans hused) (of_decide_eq_false hstop.incomplete)
    · rw [hstrict] at h
      exact absurd h (by simp)
    · rw [hstrict] at h
      obtain ⟨rfl, rfl⟩ := EStateM.Result.error.inj h
      obtain ⟨message, hcode⟩ := rejection_code f.bytes (headerUsed f.bytes) f.stop
      exact ⟨⟨message, by rw [hcode]⟩, rfl, rfl, rfl⟩

/-! ### A directory of three segments -/

/-- A new segment file with one record. -/
def recordFile (key : UInt8) : WalFile := (freshFile 8192).appended kWalOpPut [key] [7]

/-- The same, with a used offset that covers bytes behind it that were never written. -/
def partlyFile (key : UInt8) : WalFile := (recordFile key).setUsed (kWalHeaderSize + 15 + 13)

/-- The record of both. -/
def firstRecord (key : UInt8) : ℕ × WalRecord :=
  (kWalHeaderSize, ⟨kWalOpPut, [key], [7], kWalHeaderSize + 15⟩)

section Files

variable (key : UInt8) (id : ℕ)

theorem appendable_freshFile : Appendable (freshFile 8192) 8192 kWalOpPut [key] [7] := by
  refine ⟨fileOk_freshFile (by decide), by decide, Or.inl rfl, show 1 ≤ kMaxKeySize by decide, ?_⟩
  rw [headerUsed_freshFile (by decide)]
  show kWalHeaderSize + 15 ≤ 8192
  decide

theorem filePiece_recordFile : filePiece id (recordFile key) = ⟨id, [firstRecord key], true⟩ := by
  have hfresh : filePiece id (freshFile 8192) = ⟨id, [], true⟩ := filePiece_fresh id (by decide)
  rw [recordFile, filePiece_appended (appendable_freshFile key) (by rw [hfresh]), hfresh,
    headerUsed_freshFile (by decide)]
  rfl

theorem fileOk_partlyFile : FileOk (partlyFile key) 8192 :=
  (appendable_freshFile key).fileOk.1.setUsed (by decide) (by decide) (by decide)

/-- The used offset apart, both files have the same bytes. -/
theorem agreeBelow_partlyFile : AgreeBelow (writeBytes (freshFile 8192).bytes kWalHeaderSize
    (encodeRecord kWalOpPut [key] [7])) (partlyFile key).bytes 8192 := by
  have hwith : ((freshFile 8192).withRecord kWalOpPut [key] [7]).bytes =
      writeBytes (freshFile 8192).bytes kWalHeaderSize (encodeRecord kWalOpPut [key] [7]) := by
    rw [WalFile.withRecord, headerUsed_freshFile (by decide)]
  have hrecord : AgreeBelow ((freshFile 8192).withRecord kWalOpPut [key] [7]).bytes
      (recordFile key).bytes 8192 := agreeBelow_setUsed _ _ _
  have hpartly : AgreeBelow (recordFile key).bytes (partlyFile key).bytes 8192 :=
    agreeBelow_setUsed _ _ _
  rw [← hwith]
  exact fun i hlo hhi => (hrecord i hlo hhi).trans (hpartly i hlo hhi)

theorem readBytes_partlyFile : readBytes (partlyFile key).bytes kWalHeaderSize
    (recordSize [key] [7]) = encodeRecord kWalOpPut [key] [7] := by
  have hread := (agreeBelow_partlyFile key).readBytes kWalHeaderSize (recordSize [key] [7])
    (le_refl _) (show kWalHeaderSize + 15 ≤ 8192 by decide)
  rw [← hread, ← length_encodeRecord kWalOpPut [key] [7]]
  exact readBytes_writeBytes _ _ _

theorem partlyFile_zero : (partlyFile key).bytes (kWalHeaderSize + 15) = 0 := by
  have hlength : kWalHeaderSize + (encodeRecord kWalOpPut [key] [7]).length ≤
      kWalHeaderSize + 15 := by
    rw [length_encodeRecord]
    exact le_refl _
  rw [← agreeBelow_partlyFile key _ (by decide) (by decide), writeBytes_of_le hlength]
  exact freshFile_zero (by decide)

/-- The record is read, and what is behind it is none. -/
theorem filePiece_partlyFile : filePiece id (partlyFile key) = ⟨id, [firstRecord key], false⟩ := by
  have hused : headerUsed (partlyFile key).bytes = kWalHeaderSize + 28 := headerUsed_setUsed (by decide)
  obtain ⟨haccepted, hrecord⟩ := accepted_of_encode (readBytes_partlyFile key)
    (show 1 ≤ kMaxKeySize by decide) (show 1 < 2 ^ 32 by decide) (Or.inl rfl) (le_refl _)
    (show kWalHeaderSize + 15 ≤ kWalHeaderSize + 28 by decide) true
  have hfirst : readAt (partlyFile key).bytes (kWalHeaderSize + 28) kWalHeaderSize =
      some ((firstRecord key).2, kWalHeaderSize + 15) :=
    readAt_eq_some.mpr ⟨haccepted, hrecord.symm, (congrArg WalRecord.endOffset hrecord).symm⟩
  have hscan : scanSegment (partlyFile key).bytes (kWalHeaderSize + 28) =
      ([firstRecord key], kWalHeaderSize + 15) := by
    rw [scanSegment, scanFrom_some (by decide) hfirst,
      scanFrom_none (readAt_zero (partlyFile_zero key))]
    rfl
  rw [filePiece, segmentPiece, hused, hscan,
    decide_eq_false (show ¬kWalHeaderSize + 15 = kWalHeaderSize + 28 by decide)]

end Files

/-- **A damaged segment** between two others, with a record in front of the damage. -/
def damagedDisk : Disk :=
  Disk.empty.setDir 1 ⟨[(1, recordFile 1), (2, partlyFile 2), (3, recordFile 3)], by simp⟩

theorem dir_damagedDisk :
    damagedDisk.dir 1 = ⟨[(1, recordFile 1), (2, partlyFile 2), (3, recordFile 3)], by simp⟩ := by
  rw [damagedDisk, Disk.dir_setDir, if_pos rfl]

theorem images_damagedDisk : Images (damagedDisk.dir 1) 8192 := by
  rw [dir_damagedDisk]
  refine ⟨by decide, by decide, fun id f hf => ?_⟩
  have hmem : (id, f) ∈ [(1, recordFile 1), (2, partlyFile 2), (3, recordFile 3)] :=
    (SortedMap.mem_entries_iff _ _ _).mpr hf
  rcases List.mem_cons.mp hmem with h | hmem
  · obtain ⟨rfl, rfl⟩ := Prod.mk.inj h
    exact ⟨by decide, by decide, (appendable_freshFile 1).fileOk.1⟩
  rcases List.mem_cons.mp hmem with h | hmem
  · obtain ⟨rfl, rfl⟩ := Prod.mk.inj h
    exact ⟨by decide, by decide, fileOk_partlyFile 2⟩
  · obtain ⟨rfl, rfl⟩ := Prod.mk.inj (List.mem_singleton.mp hmem)
    exact ⟨by decide, by decide, (appendable_freshFile 3).fileOk.1⟩

theorem dirPieces_damagedDisk : dirPieces (damagedDisk.dir 1) =
    [⟨1, [firstRecord 1], true⟩, ⟨2, [firstRecord 2], false⟩, ⟨3, [firstRecord 3], true⟩] := by
  rw [dir_damagedDisk, ← filePiece_recordFile 1 1, ← filePiece_partlyFile 2 2,
    ← filePiece_recordFile 3 3]
  rfl

/-- The directory is opened. -/
theorem prepare_damagedDisk : ∃ w, prepare .reliable 8192 1 [] (World.boot damagedDisk) = .ok () w ∧
    w.recovered = [(1, firstRecord 1), (2, firstRecord 2)] := by
  have himages := images_damagedDisk
  obtain ⟨t, ix, hrun, _⟩ : ∃ t ix, prepare .reliable 8192 1 [] (World.boot damagedDisk) =
      .ok () (preparedWorld (World.boot damagedDisk) 8192 1 [] t ix) ∧ _ :=
    prepare_ok (fun _ => rfl) Env.reliable_survives.stores himages.size_lo himages.size_hi
      Nat.one_ne_zero himages.openable ⟨fun _ h => absurd h List.not_mem_nil, by decide⟩
  obtain ⟨_, _, _, _, _, _, hopened⟩ := prepare_inv himages hrun
  refine ⟨_, hrun, ?_⟩
  rw [hopened.recovered_eq]
  show dirRecovered (openedDir (damagedDisk.dir 1) 8192) = _
  rw [himages.openedDir_eq (by rw [dir_damagedDisk]; simp), dirRecovered, dirPieces_damagedDisk]
  rfl

/-- The policies on this directory. -/
theorem replay_policies_agree_damaged : ∃ w w',
    prepare .reliable 8192 1 [] (World.boot damagedDisk) = .ok () w ∧
    replayAll .reliable .pointInTime w = .ok () w' ∧
    applyRecords [(1, firstRecord 1), (2, firstRecord 2)] w = .ok () (w.withIndex w'.index) ∧
    ((∃ w'', replayAll .reliable .strict w = .ok () w'') ↔ TruncatesNone w w') := by
  obtain ⟨w, hrun, hrecovered⟩ := prepare_damagedDisk
  obtain ⟨w', hreplay, happlied, hiff, _⟩ :=
    replay_policies_agree images_damagedDisk hrun Env.reliable_survives
  rw [hrecovered] at happlied
  exact ⟨w, w', hrun, hreplay, happlied, hiff⟩

end MinweightStore.Store
