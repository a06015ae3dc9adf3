import MinweightStore.Store.Appending
import MinweightStore.Store.PointInTime

/-!
# An interrupted recovery

Point-in-time recovery truncates first and unlinks afterwards, and the next recovery sees no gap.
If it is interrupted in between, or an `unlink` fails, the segments that are still there are
replayed behind the truncated one.

* `RecoversTo` — the map that an uninterrupted recovery of a directory shows;
* `SafeToInterrupt` — an interrupted recovery of it leaves a directory with the same map;
* `HarmlessBehind` — the segments behind the first invalid record change nothing;
* `safeToInterrupt_iff` — which is exactly when the recovery is safe to interrupt.
-/

namespace MinweightStore.Store

open Minpatricia (ByteView Position Index kMaxKeySize KnowsAll)
open ValidPrefix

/-! ### What a directory recovers to -/

/-- **The map a recovery shows.** -/
def RecoversTo (walSize generation : ℕ) (entries : List Item) (d : Disk)
    (v : SortedMap ByteView ByteView) : Prop :=
  ∃ w pages, recoverStore .reliable .pointInTime walSize generation entries (World.boot d) =
    .ok () w ∧ Shows w v pages

/-- **A recovery that may be interrupted**: whatever becomes of its calls, of which the truncation is
made or is not, the next recovery shows the same map. -/
def SafeToInterrupt (walSize generation : ℕ) (entries : List Item) (d : Disk) : Prop :=
  ∀ env w v, env.WholeFields →
    prepare .reliable walSize generation entries (World.boot d) = .ok () w →
    RecoversTo walSize generation entries d v →
    RecoversTo walSize generation entries (Prog.final (replayAll env .pointInTime) w).disk v

section Recovers

variable {d : Disk} {walSize generation : ℕ} {entries : List Item}
  {v v' : SortedMap ByteView ByteView}

theorem RecoversTo.unique (h : RecoversTo walSize generation entries d v)
    (h' : RecoversTo walSize generation entries d v') : v = v' := by
  obtain ⟨w, _, hrun, hshows⟩ := h
  obtain ⟨w', _, hrun', hshows'⟩ := h'
  rw [hrun] at hrun'
  obtain rfl := (EStateM.Result.ok.inj hrun').2
  exact hshows.unique hshows'

/-- **A set of images recovers to its valid prefix** over the snapshot. -/
theorem recoversTo_images (himages : Images (d.dir generation) walSize) (hg : generation ≠ 0)
    (hentries : LoadableItems entries) :
    RecoversTo walSize generation entries d (shownBy (d.dir generation) entries) := by
  obtain ⟨t, ix, hprepare, _⟩ : ∃ t ix, prepare .reliable walSize generation entries
      (World.boot d) = .ok () (preparedWorld (World.boot d) walSize generation entries t ix) ∧ _ :=
    prepare_ok (fun _ => rfl) Env.reliable_survives.stores himages.size_lo himages.size_hi hg himages.openable
      hentries
  obtain ⟨w', files', hrun, _, hsettled, hrec, _⟩ :=
    pointInTime_run himages hprepare Env.reliable_survives (fun _ => rfl)
  obtain ⟨pages, hshows⟩ := hsettled.shows
  refine ⟨w', pages, ?_, ?_⟩
  · rw [recoverStore, Prog.bind_ok hprepare]
    exact hrun
  · rwa [shownBy, ← hrec]

end Recovers

/-! ### Harmless segments -/

/-- **The segments behind the first invalid record change nothing**: replayed on top of the valid
prefix, the valid records of each of them leave the map as it is. -/
def HarmlessBehind (files : WalDir) (entries : List Item) : Prop :=
  ∀ p, firstIncomplete (dirPieces files) = some p → ∀ q ∈ dirPieces files, p.id < q.id →
    q.marked.foldl applyValue (shownBy files entries) = shownBy files entries

/-- A first segment changes nothing about it. -/
theorem harmlessBehind_openedDir {files : WalDir} {walSize : ℕ} {entries : List Item}
    (h : Images files walSize) :
    HarmlessBehind (openedDir files walSize) entries ↔ HarmlessBehind files entries := by
  by_cases hne : files.entries = []
  · have hnone : firstIncomplete (dirPieces files) = none := by
      rw [dirPieces, hne]
      rfl
    rw [HarmlessBehind, HarmlessBehind, h.dirPieces_openedDir.2, hnone]
    exact ⟨fun _ p hp => absurd hp (by simp), fun _ p hp => absurd hp (by simp)⟩
  · rw [h.openedDir_eq hne]

theorem foldl_recover_harmless {v : SortedMap ByteView ByteView} :
    ∀ (ps : List (Piece ℕ (ℕ × WalRecord))), (∀ p ∈ ps, p.marked.foldl applyValue v = v) →
      (recover ps).foldl applyValue v = v
  | [], _ => rfl
  | p :: ps, h => by
    rw [recover, List.foldl_append, h p List.mem_cons_self]
    split
    · exact foldl_recover_harmless ps (fun q hq => h q (List.mem_cons_of_mem _ hq))
    · rfl

/-- Calls of which one fails. -/
def Env.failsAt (t : ℕ) : Env := fun site t' => if site = .replay ∧ t' = t then .fails 0 else .succeeds

theorem Env.failsAt_survives (t : ℕ) : (Env.failsAt t).Survives := by
  intro site t' n h
  rw [failsAt] at h
  split at h <;> exact absurd h (by simp)

/-- One failing `unlink` leaves one segment behind. -/
theorem unlinked_failsAt (id : ℕ) (post : List ℕ) : ∀ (pre : List ℕ) (t : ℕ),
    unlinked (Env.failsAt (t + pre.length)) t (pre ++ id :: post) = pre ++ post
  | [], t => by
    have hrest : ∀ (ids : List ℕ) (k : ℕ), unlinked (Env.failsAt t) (t + 1 + k) ids = ids := by
      intro ids
      induction ids with
      | nil => exact fun _ => rfl
      | cons i ids ih =>
        intro k
        have hok : Env.failsAt t .replay (t + 1 + k) = .succeeds := by
          rw [Env.failsAt, if_neg (fun h => by have := h.2; omega)]
        rw [unlinked, if_pos hok, Nat.add_assoc, ih (k + 1)]
    have hfail : Env.failsAt t .replay t ≠ .succeeds := by
      rw [Env.failsAt, if_pos ⟨rfl, rfl⟩]
      simp
    rw [List.nil_append, unlinked, List.length_nil, Nat.add_zero, if_neg hfail]
    exact hrest post 0
  | i :: pre, t => by
    have hok : Env.failsAt (t + (i :: pre).length) .replay t = .succeeds := by
      rw [Env.failsAt, List.length_cons, if_neg (fun h => by have := h.2; omega)]
    have ih := unlinked_failsAt id post pre (t + 1)
    rw [List.cons_append, unlinked, if_pos hok, List.length_cons, Nat.add_comm pre.length,
      ← Nat.add_assoc, ih]
    rfl

section Stop

variable {w : World} {files : WalDir} {id : ℕ} {f : WalFile} {pre post : List (ℕ × WalFile)}
  {seg : WalSegment} {ix' : Index}

/-- The replay of a log that is rearranged. -/
def Rearranges (w : World) (id : ℕ) (f : WalFile) (ix' : Index) : Prop :=
  ∀ env, replayAll env .pointInTime w = rearrange env (w.behind id) id f.stop (w.withIndex ix')

/-- What an interrupted recovery leaves. -/
theorem interrupted_disk (hrun : Rearranges w id f ix') (h : Opened w files)
    (hstop : StopsAt files id f pre post) (hs : w.records.segments.get? id = some seg) {env : Env}
    (henv : env.WholeFields) : (Prog.final (replayAll env .pointInTime) w).disk = w.disk ∨
    ∃ gone : List ℕ, (∀ i ∈ gone, id < i) ∧
      (Prog.final (replayAll env .pointInTime) w).disk = w.withDir (cutDir files id f gone) := by
  rw [Prog.final_congr (hrun env)]
  exact rearrange_disk henv (h.withIndex ix') hstop hs

/-- **Any single segment may be left behind.** -/
theorem interrupted_keeps (hrun : Rearranges w id f ix') (h : Opened w files)
    (hstop : StopsAt files id f pre post) (hs : w.records.segments.get? id = some seg)
    {e : ℕ × WalFile} (he : e ∈ post) : ∃ (env : Env) (gone : List ℕ), env.WholeFields ∧
    (∀ i ∈ gone, id < i) ∧ post.filter (fun x => x.1 ∉ gone) = [e] ∧
    (Prog.final (replayAll env .pointInTime) w).disk = w.withDir (cutDir files id f gone) := by
  obtain ⟨a, b, rfl⟩ := List.append_of_mem he
  have hids : (a ++ e :: b).map Prod.fst = a.map Prod.fst ++ e.1 :: b.map Prod.fst := by
    rw [List.map_append, List.map_cons]
  have hsurvives := Env.failsAt_survives (w.clock + 1 + (a.map Prod.fst).length)
  have hrest := rearrange_survives hsurvives (h.withIndex ix') hstop hs
  have hclock : (w.withIndex ix').clock = w.clock := rfl
  rw [hclock, hids, unlinked_failsAt] at hrest
  refine ⟨_, a.map Prod.fst ++ b.map Prod.fst, hsurvives.stores.sparesHeaders.wholeFields,
    fun i hi => ?_, ?_, (congrArg World.disk (Prog.final_ok ((hrun _).trans hrest)) : _)⟩
  · have hmem : i ∈ (a ++ e :: b).map Prod.fst := by
      rw [hids]
      rcases List.mem_append.mp hi with hi | hi
      · exact List.mem_append_left _ hi
      · exact List.mem_append_right _ (List.mem_cons_of_mem _ hi)
    obtain ⟨x, hx, rfl⟩ := List.mem_map.mp hmem
    exact hstop.order.2.1 x hx
  · have hsorted := files.sorted
    rw [hstop.split] at hsorted
    obtain ⟨_, hpost, _⟩ := List.pairwise_append.mp hsorted
    obtain ⟨_, heb, hab⟩ := List.pairwise_append.mp hpost
    have hb := (List.pairwise_cons.mp heb).1
    have hdrop : ∀ l : List (ℕ × WalFile), (∀ x ∈ l, x ∈ a ∨ x ∈ b) →
        l.filter (fun x => x.1 ∉ a.map Prod.fst ++ b.map Prod.fst) = [] := by
      intro l hl
      refine List.filter_eq_nil_iff.mpr (fun x hx => ?_)
      simp only [decide_eq_true_eq, not_not, List.mem_append]
      exact (hl x hx).imp (List.mem_map_of_mem) (List.mem_map_of_mem)
    have hkeep : e.1 ∉ a.map Prod.fst ++ b.map Prod.fst := by
      intro hmem
      rcases List.mem_append.mp hmem with hmem | hmem
      · obtain ⟨x, hx, hxe⟩ := List.mem_map.mp hmem
        exact absurd (hab x hx e List.mem_cons_self) (by rw [hxe]; exact lt_irrefl _)
      · obtain ⟨x, hx, hxe⟩ := List.mem_map.mp hmem
        exact absurd (hb x hx) (by rw [hxe]; exact lt_irrefl _)
    have hcons : (e :: b).filter (fun x => x.1 ∉ a.map Prod.fst ++ b.map Prod.fst) =
        e :: b.filter (fun x => x.1 ∉ a.map Prod.fst ++ b.map Prod.fst) :=
      List.filter_cons_of_pos (decide_eq_true hkeep)
    rw [List.filter_append, hcons, hdrop a (fun x hx => Or.inl hx),
      hdrop b (fun x hx => Or.inr hx), List.nil_append]

end Stop

section Safe

variable {d : Disk} {walSize generation : ℕ} {entries : List Item}

/-- What the two directions share: the prepared world, and what its disk may become. -/
theorem prepared_left (himages : Images (d.dir generation) walSize) (hg : generation ≠ 0)
    (hentries : LoadableItems entries) : ∃ w₀ files ix',
    prepare .reliable walSize generation entries (World.boot d) = .ok () w₀ ∧
    Opened w₀ files ∧ Images files walSize ∧
    (HarmlessBehind files entries ↔ HarmlessBehind (d.dir generation) entries) ∧
    RecoversTo walSize generation entries d (shownBy files entries) ∧
    (∀ files', Images files' walSize →
      RecoversTo walSize generation entries (w₀.withDir files') (shownBy files' entries)) ∧
    ((AllComplete (dirPieces files) ∧
      ∀ env, replayAll env .pointInTime w₀ = .ok () (w₀.withIndex ix')) ∨
    ∃ id f pre post seg, StopsAt files id f pre post ∧
      w₀.records.segments.get? id = some seg ∧ Rearranges w₀ id f ix') := by
  obtain ⟨t, ix, hprepare, hix⟩ : ∃ t ix, prepare .reliable walSize generation entries
      (World.boot d) = .ok () (preparedWorld (World.boot d) walSize generation entries t ix) ∧
      Indexed (preparedWorld (World.boot d) walSize generation entries t ix) ix
        (snapshotMap 1 entries .empty) (1 + entries.length) :=
    prepare_ok (fun _ => rfl) Env.reliable_survives.stores himages.size_lo himages.size_hi hg himages.openable
      hentries
  have hopened : Opened (preparedWorld (World.boot d) walSize generation entries t ix)
      (openedDir (d.dir generation) walSize) :=
    opened_prepared himages.size_lo himages.size_hi himages.openable t ix
  have hcount := hentries.2
  obtain ⟨ix', _, hcases⟩ := replay_opened hopened hix (by omega)
  have hself := recoversTo_images himages hg hentries
  rw [shownBy, ← himages.dirPieces_openedDir.1, ← shownBy] at hself
  refine ⟨_, _, ix', hprepare, hopened, hopened.images, harmlessBehind_openedDir himages, hself,
    fun files' hfiles' => ?_, ?_⟩
  · have hdir : ((preparedWorld (World.boot d) walSize generation entries t ix).withDir
        files').dir generation = files' := (Disk.dir_setDir _ _).trans (if_pos rfl)
    have hrec := recoversTo_images (hdir.symm ▸ hfiles') hg hentries
    rwa [hdir] at hrec
  · rcases hcases with ⟨hcomplete, hrun⟩ | ⟨id, f, pre, post, seg, hstop, hs, hrun⟩
    · exact Or.inl ⟨hcomplete, fun env => hrun env .pointInTime⟩
    · exact Or.inr ⟨id, f, pre, post, seg, hstop, hs, fun env => (hrun env).2⟩

/-- A recovery that is safe to interrupt has harmless segments behind its stop: any single one of
them may be what an `unlink` leaves. -/
theorem harmless_of_safe (himages : Images (d.dir generation) walSize) (hg : generation ≠ 0)
    (hentries : LoadableItems entries) (hsafe : SafeToInterrupt walSize generation entries d) :
    HarmlessBehind (d.dir generation) entries := by
  obtain ⟨w₀, files, ix', hprepare, hopened, hfiles, hiff, hself, hleft, hcases⟩ :=
    prepared_left himages hg hentries
  refine hiff.mp (fun p hp q hq hlt => ?_)
  rcases hcases with ⟨hcomplete, _⟩ | ⟨id, f, pre, post, seg, hstop, hs, hrun⟩
  · rw [firstIncomplete_eq_none.mpr hcomplete] at hp
    exact absurd hp (by simp)
  · rw [hstop.first] at hp
    obtain rfl := Option.some.inj hp
    obtain ⟨e, he, rfl⟩ := hstop.mem_behind.mp ⟨hq, hlt⟩
    obtain ⟨env, gone, henv, hgone, hkept, hcut⟩ := interrupted_keeps hrun hopened hstop hs he
    have hnext := hsafe env _ _ henv hprepare hself
    rw [hcut] at hnext
    have hsame := (hleft _ (hstop.images_cut hfiles gone)).unique hnext
    have hone : recover [filePiece e.1 e.2] = (filePiece e.1 e.2).marked := by
      rw [recover]
      split <;> exact List.append_nil _
    rwa [shownBy, hstop.recovered_cut hfiles hgone, hkept, List.foldl_append,
      List.map_singleton, hone] at hsame

/-- With harmless segments behind its stop a recovery is safe to interrupt. -/
theorem safe_of_harmless (himages : Images (d.dir generation) walSize) (hg : generation ≠ 0)
    (hentries : LoadableItems entries) (hharmless : HarmlessBehind (d.dir generation) entries) :
    SafeToInterrupt walSize generation entries d := by
  obtain ⟨w₀, files, ix', hprepare, hopened, hfiles, hiff, hself, hleft, hcases⟩ :=
    prepared_left himages hg hentries
  have hgen : w₀.records.generation = generation := by
    obtain ⟨_, _, t, ix, rfl, _⟩ := prepare_inv himages hprepare
    rfl
  have hdisk : w₀.withDir files = w₀.disk := Disk.setDir_self hopened.dir
  intro env w v henv hw hv
  rw [hprepare] at hw
  obtain rfl := (EStateM.Result.ok.inj hw).2
  obtain rfl := hv.unique hself
  rcases hcases with ⟨_, hrun⟩ | ⟨id, f, pre, post, seg, hstop, hs, hrun⟩
  · rw [Prog.final_ok (hrun env), World.withIndex_disk, ← hdisk]
    exact hleft _ hfiles
  · rcases interrupted_disk hrun hopened hstop hs henv with hnone | ⟨gone, hgone, hcut⟩
    · rw [hnone, ← hdisk]
      exact hleft _ hfiles
    · have hshown : shownBy (cutDir files id f gone) entries = shownBy files entries := by
        rw [shownBy, hstop.recovered_cut hfiles hgone, List.foldl_append]
        refine foldl_recover_harmless _ (fun q hq => ?_)
        obtain ⟨e, he, rfl⟩ := List.mem_map.mp hq
        obtain ⟨hmem, hlt⟩ := hstop.mem_behind.mpr ⟨e, List.mem_of_mem_filter he, rfl⟩
        exact hiff.mpr hharmless _ hstop.first _ hmem hlt
      rw [hcut, ← hshown]
      exact hleft _ (hstop.images_cut hfiles gone)

/-- **When point-in-time recovery is safe to interrupt**: exactly when the segments behind the
first invalid record are harmless. -/
theorem safeToInterrupt_iff (himages : Images (d.dir generation) walSize) (hg : generation ≠ 0)
    (hentries : LoadableItems entries) :
    SafeToInterrupt walSize generation entries d ↔ HarmlessBehind (d.dir generation) entries :=
  ⟨harmless_of_safe himages hg hentries, safe_of_harmless himages hg hentries⟩

end Safe

/-! ### A recovery that is not safe to interrupt -/

/-- A directory with two segments. -/
def twoFiles (f f' : WalFile) : WalDir := ⟨[(1, f), (2, f')], by simp⟩

/-- A damaged segment in front of one that puts `07` under `01`. -/
def interruptedDisk : Disk :=
  Disk.empty.setDir 1
    (twoFiles (damagedFile 8192) ((freshFile 8192).appended kWalOpPut [1] [7]))

theorem images_twoFiles {f f' : WalFile} {size : ℕ} (hlo : kWalHeaderSize + kWalRecordHeaderSize ≤ size)
    (hhi : size ≤ kRecordOffsetLimit) (hf : FileOk f size) (hf' : FileOk f' size) :
    Images (twoFiles f f') size := by
  refine ⟨hlo, hhi, fun id g hg => ?_⟩
  have hmem : (id, g) ∈ [(1, f), (2, f')] := (SortedMap.mem_entries_iff _ _ _).mpr hg
  rcases List.mem_cons.mp hmem with h | h
  · obtain ⟨rfl, rfl⟩ := Prod.mk.inj h
    exact ⟨by omega, by omega, hf⟩
  · obtain ⟨rfl, rfl⟩ := Prod.mk.inj (List.mem_singleton.mp h)
    exact ⟨by omega, by omega, hf'⟩

theorem images_interruptedDisk : Images (interruptedDisk.dir 1) 8192 := by
  rw [interruptedDisk, Disk.dir_setDir, if_pos rfl]
  exact images_twoFiles (by decide) (by decide) (fileOk_damagedFile (by decide) (by decide))
    (appendable_freshFile 1).fileOk.1

/-- The condition, on a damaged segment in front of a valid one. -/
theorem safeToInterrupt_iff_interruptedDisk :
    SafeToInterrupt 8192 1 [] interruptedDisk ↔ HarmlessBehind (interruptedDisk.dir 1) [] :=
  safeToInterrupt_iff images_interruptedDisk Nat.one_ne_zero
    ⟨fun _ h => absurd h List.not_mem_nil, by decide⟩

/-- **A process killed between the truncation and the `unlink`**: the record of the segment behind
is replayed by the next recovery. -/
theorem not_safeToInterrupt_interruptedDisk : ¬ SafeToInterrupt 8192 1 [] interruptedDisk := by
  intro hsafe
  have hentries : LoadableItems [] := ⟨fun _ h => absurd h List.not_mem_nil, by decide⟩
  have hharmless := harmless_of_safe images_interruptedDisk Nat.one_ne_zero hentries hsafe
  have hpieces : dirPieces (interruptedDisk.dir 1) =
      [⟨1, [], false⟩, ⟨2, [firstRecord 1], true⟩] := by
    rw [interruptedDisk, Disk.dir_setDir, if_pos rfl, ← filePiece_recordFile 1 2,
      ← filePiece_damagedFile 1 8192]
    rfl
  have hshown : shownBy (interruptedDisk.dir 1) [] = .empty := by
    rw [shownBy, dirRecovered, hpieces]
    rfl
  rw [HarmlessBehind, hpieces, hshown] at hharmless
  have hsame := hharmless _ rfl _ (List.mem_cons_of_mem _ List.mem_cons_self) Nat.one_lt_two
  have hget := congrArg (fun v : SortedMap ByteView ByteView => v.get? [1]) hsame
  have hput : ((SortedMap.empty : SortedMap ByteView ByteView).insert [1] [7]).get? [1] =
      some [7] := by
    rw [SortedMap.get?_insert, if_pos rfl]
  exact absurd (hput.symm.trans hget) (by rw [SortedMap.get?_empty]; simp)

end MinweightStore.Store
