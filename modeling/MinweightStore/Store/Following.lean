import MinweightStore.Base.Follows
import MinweightStore.Store.Stopping

/-!
# Calls that may fail and calls that succeed

A part of the store does what it does when all calls succeed, unless a call is to blame.

* `FollowsReliable` — the relation between the two runs;
* `follows_openSegments`, `follows_readManifest`, `follows_readSnapshot` — the parts of `Open`;
* `follows_appendOrRollover` — the log;
* `completes_follows` — **what is known of the run whose calls succeed** is known of any other.
-/

namespace MinweightStore.Store

open Minpatricia (ByteView Position)

/-- **A program does what another one does**, unless a call is to blame. -/
abbrev FollowsReliable {α : Type} (env : Env) (x y : StoreM α) : Prop := Prog.Follows (Blamed env) x y

section Follows

variable {α : Type} {env : Env} {site : Site} {x y : StoreM α} {D : Disk → Prop} {w w' : World} {a : α}

/-- **A run whose calls succeed**, and where any other run may stop. -/
theorem completes_follows (h : FollowsReliable env x y) (hy : y w = .ok a w')
    (hfaults : Prog.wp x (fun _ _ => True) (Stops env D) w) :
    completes env D x (fun b w₁ => b = a ∧ w₁ = w') w := h.wp hy hfaults

/-- A status that is caught is blamed on a call that failed. -/
theorem Blamed.of_status {status : Status} (h : Blamed env (.status status)) (fault : Fault Status) :
    Blamed env fault := Or.inl (h.resolve_right (fun h => nomatch h.1))

theorem follows_syscall (op : String) (effect : Disk → Disk) :
    FollowsReliable env (syscall env site op effect) (syscall .reliable site op effect) := by
  intro w a w' hrun
  rw [syscall_ok (reliableAt_reliable site)] at hrun
  cases hrun
  exact Prog.wp_mono (completes_syscall (D := fun _ => True) (Q := fun _ w' => w' =
    w.onDisk (effect w.disk) (w.clock + 1)) trivial rfl) (fun _ _ h => ⟨rfl, h⟩) (fun _ _ h => h.1)

theorem follows_check (op : String) : FollowsReliable env (check env site op)
    (check .reliable site op) := follows_syscall op id

/-! ### Opening segments -/

-- the header check runs over 4096 bytes and is never to be evaluated here
attribute [local irreducible] isZeroBytes

theorem follows_open (generation size fileNo : ℕ) :
    FollowsReliable env (WalSegment.open' env site generation size fileNo)
      (WalSegment.open' .reliable site generation size fileNo) := by
  have hcreate : FollowsReliable env (WalSegment.createFile env site generation fileNo)
      (WalSegment.createFile .reliable site generation fileNo) := by
    refine (Prog.Follows.refl get).bind fun w => ?_
    cases w.disk.wal.get? generation with
    | none => exact .refl _
    | some files => exact follows_syscall _ _
  have hsize : FollowsReliable env (WalSegment.sizeFile env site generation fileNo size)
      (WalSegment.sizeFile .reliable site generation fileNo size) := by
    refine (follows_check _).bind fun _ => (Prog.Follows.refl get).bind fun w => ?_
    simp only
    split
    · exact (follows_syscall _ _).bind fun _ => .refl _
    · exact .refl _
  rw [WalSegment.open', WalSegment.open']
  split
  · exact .refl _
  cases makeRecordPosition fileNo kWalHeaderSize with
  | error fault => exact .refl _
  | ok pos =>
    refine hcreate.bind fun _ => hsize.bind fun metadataDirty => (follows_check _).bind fun _ => ?_
    exact (tracks_mapHeader _ _ _ _).follows
      (fun hdie => Blamed.of_killed (fun hstores => hdie hstores.sparesHeaders))

theorem follows_openSegment (fileNo : ℕ) (isSealed : Bool) :
    FollowsReliable env (openSegment env site fileNo isSealed)
      (openSegment .reliable site fileNo isSealed) :=
  (Prog.Follows.refl get).bind fun _ => (follows_open _ _ _).bind fun _ => .refl _

/-- The loop of `Open`, by induction on the file numbers. -/
theorem follows_openSegments (active : ℕ) (ids : List ℕ) :
    FollowsReliable env (openSegments env active ids) (openSegments .reliable active ids) := by
  induction ids with
  | nil => exact .refl _
  | cons id ids ih => exact (follows_openSegment id _).bind fun _ => ih

/-- **`SegmentedRecordStore::Open`**. -/
theorem follows_openRecords (walSize generation : ℕ) :
    FollowsReliable env (openRecords env walSize generation)
      (openRecords .reliable walSize generation) := by
  rw [openRecords, openRecords]
  split
  · exact .refl _
  split
  · exact .refl _
  refine (follows_syscall _ _).bind fun _ => Prog.Follows.bind ?_ fun listed => ?_
  · exact (follows_check _).bind fun _ => (follows_check _).bind fun _ =>
      (follows_check _).bind fun _ => .refl _
  · exact (Prog.Follows.refl _).bind fun _ => follows_openSegments _ _

/-! ### Reading files -/

theorem follows_readAll (rest : List UInt8) (size : ℕ) :
    FollowsReliable env (readAll env site rest size) (readAll .reliable site rest size) :=
  (follows_check _).bind fun _ => .refl _

/-- **`ReadManifest`**: the status of the read and of `close` are caught. -/
theorem follows_readManifest :
    FollowsReliable env (readManifest env site) (readManifest .reliable site) := by
  refine (follows_check _).bind fun _ => (Prog.Follows.refl get).bind fun w => ?_
  cases w.disk.manifest with
  | none => exact .refl _
  | some content =>
    refine (follows_readAll _ _).attempt_bind (fun data => ?_) (fun _ h => h.of_status)
      (fun e => .bind fun _ => Prog.neverReturns_fail e)
      (fun e => .bind fun _ => Prog.neverReturns_fail e)
    exact (follows_check _).attempt_bind (fun _ => .refl _) (fun _ h => h.of_status)
      (fun e => Prog.neverReturns_fail e) (fun e => Prog.neverReturns_fail e)

theorem follows_readItem (rest : List UInt8) :
    FollowsReliable env (readItem env site rest) (readItem .reliable site rest) := by
  have hpart : ∀ rest size, FollowsReliable env (readPart env site rest size)
      (readPart .reliable site rest size) := by
    intro rest size
    rw [readPart, readPart]
    split
    · exact .refl _
    · exact follows_readAll _ _
  refine (follows_readAll _ _).bind fun header => ?_
  simp only
  split
  · exact .refl _
  · exact (hpart _ _).bind fun key => (hpart _ _).bind fun value => .refl _

/-- The loop of `ReadSnapshot`, by induction on the number of records. -/
theorem follows_readItems (count : ℕ) (rest : List UInt8) :
    FollowsReliable env (readItems env site count rest) (readItems .reliable site count rest) := by
  induction count generalizing rest with
  | zero => exact .refl _
  | succ count ih => exact (follows_readItem rest).bind fun item => (ih item.2).bind fun _ => .refl _

/-- **`ReadSnapshot`**. -/
theorem follows_readSnapshot (generation : ℕ) :
    FollowsReliable env (readSnapshot env site generation)
      (readSnapshot .reliable site generation) := by
  rw [readSnapshot, readSnapshot]
  split
  · exact .refl _
  refine (follows_check _).bind fun _ => (Prog.Follows.refl get).bind fun w => ?_
  cases w.disk.snapshots.get? generation with
  | none => exact .refl _
  | some content =>
    refine (follows_readAll _ _).bind fun header => (Prog.Follows.refl _).bind fun count => ?_
    exact (follows_readItems count _).bind fun entries => (follows_check _).bind fun _ => .refl _

/-! ### Appending -/

/-- `Rollover`: a segment that cannot be opened is undone, and its status returned. -/
theorem follows_rollover : FollowsReliable env (rollover env) (rollover .reliable) := by
  refine (Prog.Follows.refl get).bind fun w => ?_
  simp only
  split
  · exact .refl _
  have hundone : ∀ old id (status : Status), Prog.NeverReturns (do
      setSealed old false
      modify fun w : World => { w with records := { w.records with nextFileNo := id } }
      Prog.fail status : StoreM Unit) := fun old id status =>
    .bind fun _ => .bind fun _ => Prog.neverReturns_fail status
  refine (Prog.Follows.refl _).bind fun _ => (Prog.Follows.refl _).bind fun _ => ?_
  exact (follows_openSegment _ _).attempt_bind (fun _ => .refl _) (fun _ h => h.of_status)
    (hundone _ _) (hundone _ _)

theorem tracks_appendActive (op : UInt8) (key value : ByteView) :
    Prog.Tracks (¬ env.Stores) (appendActive env op key value)
      (appendActive .reliable op key value) :=
  (Prog.Tracks.refl get).bind fun _ => tracks_append _ _ _ _

/-- **`Append` and `DeleteRecord`**. -/
theorem follows_appendOrRollover (op : UInt8) (key value : ByteView) :
    FollowsReliable env (appendOrRollover env op key value)
      (appendOrRollover .reliable op key value) := by
  refine ((tracks_appendActive op key value).attempt.follows Blamed.of_killed).bind fun result => ?_
  cases result with
  | ok pos => exact .refl _
  | error status =>
    simp only
    split
    · exact .refl _
    · exact follows_rollover.bind fun _ =>
        (tracks_appendActive op key value).follows Blamed.of_killed

end Follows

end MinweightStore.Store
