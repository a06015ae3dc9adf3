import MinweightStore.Store.LiveItems
import MinweightStore.Store.PublicCalls

/-!
# Reads

What the public calls that only read answer on a store that shows a map.

* `answerOf` — the answers of an ordered map of byte strings;
* `walk_items` — a walk over a part of the index reads that part of the map;
* `answer_eq` — **a store that shows a map answers as the map does**;
* `sameAnswers_of_shows` — two stores that show one map answer the same.
-/

namespace MinweightStore.Store

open Minpatricia (ByteView Position Index kMaxKeySize KnowsAll Direction visitAll visitFrom seek
  edgeRoot isBefore compareKeys)

/-! ### Answers of a map -/

/-- The status of a key that is too large. -/
def keyTooLarge : Status := fromMinpatriciaStatus .keyTooLarge

/-- `Len` of a map: the count of the index has 32 bits. -/
def lenOf (v : SortedMap ByteView ByteView) : UInt64 := (Int32.ofNat v.size).toInt64.toUInt64

/-- `Get` of a map. -/
def getOf (v : SortedMap ByteView ByteView) (key : ByteView) : GetResult :=
  match v.get? key with
  | some value => ⟨value, true⟩
  | none => ⟨[], false⟩

/-- A seek: the first item, if there is one. -/
def seekOf : List Item → SeekResult
  | [] => ⟨⟨[], []⟩, false⟩
  | item :: _ => ⟨item, true⟩

/-- Keys and bounds that an index accepts. -/
def Legal (key : ByteView) : Prop := key.length ≤ kMaxKeySize

instance (key : ByteView) : Decidable (Legal key) := inferInstanceAs (Decidable (_ ≤ _))

/-- **What an ordered map answers.** -/
def answerOf (v : SortedMap ByteView ByteView) : (call : ReadCall) → Result call.Reply
  | .len => .ok (lenOf v)
  | .get key => if Legal key then .ok (getOf v key) else err keyTooLarge
  | .scan fn s => .ok (.ok (), visitItems fn (itemsOf v) s)
  | .scanRange ge lt fn s =>
    if lt < ge then err ⟨.invalidArgument, "invalid scan range"⟩
    else if Legal ge ∧ Legal lt then
      .ok (.ok (), visitItems fn ((itemsOf v).filter fun item => ge ≤ item.key ∧ item.key < lt) s)
    else .ok (err keyTooLarge, s)
  | .reverseScan fn s => .ok (.ok (), visitItems fn (itemsOf v).reverse s)
  | .reverseScanRange le gt fn s =>
    if le < gt then err ⟨.invalidArgument, "invalid reverse scan range"⟩
    else if Legal le ∧ Legal gt then
      .ok (.ok (), visitItems fn
        ((itemsOf v).reverse.filter fun item => gt < item.key ∧ item.key ≤ le) s)
    else .ok (err keyTooLarge, s)
  | .seekGE key =>
    if Legal key then .ok (seekOf ((itemsOf v).filter fun item => key ≤ item.key))
    else err keyTooLarge
  | .seekLE key =>
    if Legal key then .ok (seekOf ((itemsOf v).reverse.filter fun item => item.key ≤ key))
    else err keyTooLarge

/-- A map answers every read with a value or a status. -/
theorem settled_answerOf (v : SortedMap ByteView ByteView) (call : ReadCall) :
    call.Settled (answerOf v call) := by
  have hscan : ∀ {σ : Type} {r : Result Unit} {s : σ}, Outcome.Settled r → ∀ r' s',
      (Except.ok (r, s) : Result (Result Unit × σ)) = .ok (r', s') → Outcome.Settled r' := by
    intro σ r s hr r' s' heq
    obtain ⟨rfl, _⟩ := Prod.mk.inj (Except.ok.inj heq)
    exact hr
  cases call with
  | len => trivial
  | get key =>
    rw [answerOf]
    split
    · trivial
    · exact ReadCall.settled_err (.get key) _
  | scan fn s => exact ⟨trivial, hscan trivial⟩
  | scanRange ge lt fn s =>
    rw [answerOf]
    split
    · exact ReadCall.settled_err (.scanRange ge lt fn s) _
    · split
      · exact ⟨trivial, hscan trivial⟩
      · exact ⟨trivial, hscan trivial⟩
  | reverseScan fn s => exact ⟨trivial, hscan trivial⟩
  | reverseScanRange le gt fn s =>
    rw [answerOf]
    split
    · exact ReadCall.settled_err (.reverseScanRange le gt fn s) _
    · split
      · exact ⟨trivial, hscan trivial⟩
      · exact ⟨trivial, hscan trivial⟩
  | seekGE key =>
    rw [answerOf]
    split
    · exact trivial
    · exact ReadCall.settled_err (.seekGE key) _
  | seekLE key =>
    rw [answerOf]
    split
    · exact trivial
    · exact ReadCall.settled_err (.seekLE key) _

/-! ### Walks -/

section Walk

variable {σ : Type} {w : World} {m : SortedMap ByteView Position}
  {v : SortedMap ByteView ByteView} {pages : ℕ} {key : ByteView}

/-- A walk over a part of the index, read. -/
theorem walk_items (h : Values w m v) (dir : Direction) (p : ByteView → Bool) :
    ((dir.order m.entries).filter (fun e => p e.1)).map w.itemAt =
      (dir.order (itemsOf v)).filter (fun item => p item.key) := by
  have horder : (dir.order m.entries).map w.itemAt = dir.order (itemsOf v) := by
    rw [h.itemsOf_eq]
    cases dir with
    | ascend => rfl
    | descend => exact List.map_reverse
  rw [← horder, List.filter_map]
  rfl

/-- A walk from the outermost record. -/
theorem visit_all (hix : IndexFor w.index m pages) (hv : Values w m v) (dir : Direction)
    (fn : VisitFunc σ) (s : σ) :
    visitIndex w (fun visitor => visitFrom w.key w.index dir none visitor (edgeRoot w.index dir)) fn s =
      (.ok (), visitItems fn (dir.order (itemsOf v)) s) := by
  have hitems := walk_items hv dir (fun _ => true)
  rw [List.filter_true, List.filter_true] at hitems
  have hk := hv.knowsAll
  obtain ⟨o, hr, rfl, hn⟩ := hix
  rw [← hitems]
  refine visitIndex_ok ⟨o, hr, rfl, hn⟩ hv (fun e he => (Direction.mem_order dir).mp he) fn s ?_
  exact Minpatricia.visit_edge hr hk dir _ _

/-- A walk from a key. -/
theorem visit_from (hix : IndexFor w.index m pages) (hv : Values w m v) (dir : Direction)
    (hkey : Legal key) (fn : VisitFunc σ) (s : σ) :
    visitIndex w (fun visitor => visitFrom w.key w.index dir none visitor
        (seek w.key w.index dir key)) fn s =
      (.ok (), visitItems fn ((dir.order (itemsOf v)).filter
        (fun item => !isBefore key (item.key, 0) dir)) s) := by
  have hk := hv.knowsAll
  obtain ⟨o, hr, rfl, hn⟩ := hix
  rw [← walk_items hv dir (fun k => !isBefore key (k, 0) dir)]
  refine visitIndex_ok ⟨o, hr, rfl, hn⟩ hv
    (fun e he => (Direction.mem_order dir).mp (List.mem_of_mem_filter he)) fn s ?_
  rw [Minpatricia.visit_seek hr hk dir hkey]
  cases dir <;> rfl

/-- A walk from a key up to a bound. -/
theorem visit_between (hix : IndexFor w.index m pages) (hv : Values w m v) (dir : Direction)
    (hkey : Legal key) (bound : ByteView) (fn : VisitFunc σ) (s : σ) :
    visitIndex w (fun visitor => visitFrom w.key w.index dir (some bound) visitor
        (seek w.key w.index dir key)) fn s =
      (.ok (), visitItems fn ((dir.order (itemsOf v)).filter
        (fun item => !isBefore key (item.key, 0) dir && isBefore bound (item.key, 0) dir)) s) := by
  have hk := hv.knowsAll
  obtain ⟨o, hr, rfl, hn⟩ := hix
  rw [← walk_items hv dir (fun k => !isBefore key (k, 0) dir && isBefore bound (k, 0) dir)]
  refine visitIndex_ok ⟨o, hr, rfl, hn⟩ hv
    (fun e he => (Direction.mem_order dir).mp (List.mem_of_mem_filter he)) fn s ?_
  rw [Minpatricia.visit_seek_bound hr hk dir hkey]
  cases dir <;> rfl

/-- A walk that is refused. -/
theorem visit_refused {visit : IndexVisit σ} {fn : VisitFunc σ} {s : σ}
    (h : visit (itemVisitor w fn) (none, s) = .error (.status .keyTooLarge) (none, s)) :
    visitIndex w visit fn s = (err keyTooLarge, s) := by
  rw [visitIndex, h]
  rfl

theorem checkKeySize_refused (h : ¬Legal key) :
    Minpatricia.checkKeySize key = .error (.status .keyTooLarge) := by
  rw [Minpatricia.checkKeySize, if_pos (Nat.not_le.mp h)]
  rfl

/-- The first item of a walk. -/
theorem visitItems_seek (l : List Item) :
    visitItems seekVisitor l ⟨⟨[], []⟩, false⟩ = seekOf l := by
  cases l with
  | nil => rfl
  | cons item l => rfl

end Walk

/-! ### Answers of a store -/

section Answers

variable {σ : Type} {w w' : World} {v : SortedMap ByteView ByteView} {pages pages' : ℕ}
  {key bound : ByteView}

theorem answer_ok {α : Type} {x : StoreM α} {a : α} (h : x w = .ok a w') : answer x w = .ok a := by
  rw [answer, h]

theorem answer_error {α : Type} {x : StoreM α} {fault : Fault Status} (h : x w = .error fault w') :
    answer x w = .error fault := by
  rw [answer, h]

theorem checkOpen_ok (hopen : w.isOpen = true) (hfatal : w.fatal = none) :
    checkOpen w = .ok () w := by
  rw [checkOpen, Prog.get_bind, hopen, hfatal]
  rfl

theorem ascendRange_eq (h : Shows w v pages) (fn : VisitFunc σ) (s : σ) :
    visitIndex w (Minpatricia.ascendRange w.key w.index key bound) fn s =
      if Legal key ∧ Legal bound then (.ok (), visitItems fn
        ((itemsOf v).filter fun item => key ≤ item.key ∧ item.key < bound) s)
      else (err keyTooLarge, s) := by
  obtain ⟨m, hix, hv⟩ := h
  split
  · rename_i hlegal
    have hwalk := visit_between hix hv .ascend hlegal.1 bound fn s
    have hrange : (fun item : Item => !isBefore key (item.key, 0) .ascend &&
        isBefore bound (item.key, 0) .ascend) =
        fun item : Item => decide (key ≤ item.key ∧ item.key < bound) := by
      funext item
      rw [congrFun (Minpatricia.isBefore_ascend key) (item.key, 0), isBefore, Bool.decide_and]
    rw [hrange] at hwalk
    refine Eq.trans (congrArg (fun visit => visitIndex w visit fn s) (funext fun visitor => ?_)) hwalk
    rw [Minpatricia.ascendRange, Minpatricia.checkKeySize_ok hlegal.1,
      Minpatricia.checkKeySize_ok hlegal.2]
    rfl
  · rename_i hlegal
    apply visit_refused
    rw [Minpatricia.ascendRange]
    by_cases hkey : Legal key
    · rw [Minpatricia.checkKeySize_ok hkey, checkKeySize_refused (fun h => hlegal ⟨hkey, h⟩)]
      rfl
    · rw [checkKeySize_refused hkey]
      rfl

theorem descendRange_eq (h : Shows w v pages) (fn : VisitFunc σ) (s : σ) :
    visitIndex w (Minpatricia.descendRange w.key w.index key bound) fn s =
      if Legal key ∧ Legal bound then (.ok (), visitItems fn
        ((itemsOf v).reverse.filter fun item => bound < item.key ∧ item.key ≤ key) s)
      else (err keyTooLarge, s) := by
  obtain ⟨m, hix, hv⟩ := h
  split
  · rename_i hlegal
    have hwalk := visit_between hix hv .descend hlegal.1 bound fn s
    have hrange : (fun item : Item => !isBefore key (item.key, 0) .descend &&
        isBefore bound (item.key, 0) .descend) =
        fun item : Item => decide (bound < item.key ∧ item.key ≤ key) := by
      funext item
      rw [congrFun (Minpatricia.isBefore_descend key) (item.key, 0), isBefore, Bool.decide_and,
        Bool.and_comm]
    rw [hrange] at hwalk
    refine Eq.trans (congrArg (fun visit => visitIndex w visit fn s) (funext fun visitor => ?_)) hwalk
    rw [Minpatricia.descendRange, Minpatricia.checkKeySize_ok hlegal.1,
      Minpatricia.checkKeySize_ok hlegal.2]
    rfl
  · rename_i hlegal
    apply visit_refused
    rw [Minpatricia.descendRange]
    by_cases hkey : Legal key
    · rw [Minpatricia.checkKeySize_ok hkey, checkKeySize_refused (fun h => hlegal ⟨hkey, h⟩)]
      rfl
    · rw [checkKeySize_refused hkey]
      rfl

theorem seekGE_eq (h : Shows w v pages) :
    visitIndex w (Minpatricia.ascendGreaterOrEqual w.key w.index key) seekVisitor
        ⟨⟨[], []⟩, false⟩ =
      if Legal key then (.ok (), seekOf ((itemsOf v).filter fun item => key ≤ item.key))
      else (err keyTooLarge, ⟨⟨[], []⟩, false⟩) := by
  obtain ⟨m, hix, hv⟩ := h
  split
  · rename_i hlegal
    have hwalk := visit_from hix hv .ascend hlegal seekVisitor ⟨⟨[], []⟩, false⟩
    have hrange : (fun item : Item => !isBefore key (item.key, 0) .ascend) =
        fun item : Item => decide (key ≤ item.key) := by
      funext item
      rw [congrFun (Minpatricia.isBefore_ascend key) (item.key, 0)]
    rw [hrange, visitItems_seek] at hwalk
    refine Eq.trans (congrArg (fun visit => visitIndex w visit seekVisitor _)
      (funext fun visitor => ?_)) hwalk
    rw [Minpatricia.ascendGreaterOrEqual, Minpatricia.checkKeySize_ok hlegal]
    rfl
  · rename_i hlegal
    apply visit_refused
    rw [Minpatricia.ascendGreaterOrEqual, checkKeySize_refused hlegal]
    rfl

theorem seekLE_eq (h : Shows w v pages) :
    visitIndex w (Minpatricia.descendLessOrEqual w.key w.index key) seekVisitor
        ⟨⟨[], []⟩, false⟩ =
      if Legal key then (.ok (), seekOf ((itemsOf v).reverse.filter fun item => item.key ≤ key))
      else (err keyTooLarge, ⟨⟨[], []⟩, false⟩) := by
  obtain ⟨m, hix, hv⟩ := h
  split
  · rename_i hlegal
    have hwalk := visit_from hix hv .descend hlegal seekVisitor ⟨⟨[], []⟩, false⟩
    have hrange : (fun item : Item => !isBefore key (item.key, 0) .descend) =
        fun item : Item => decide (item.key ≤ key) := by
      funext item
      rw [congrFun (Minpatricia.isBefore_descend key) (item.key, 0)]
    rw [hrange, visitItems_seek] at hwalk
    refine Eq.trans (congrArg (fun visit => visitIndex w visit seekVisitor _)
      (funext fun visitor => ?_)) hwalk
    rw [Minpatricia.descendLessOrEqual, Minpatricia.checkKeySize_ok hlegal]
    rfl
  · rename_i hlegal
    apply visit_refused
    rw [Minpatricia.descendLessOrEqual, checkKeySize_refused hlegal]
    rfl

/-- `Get` of a store that shows a map. -/
theorem get_answer (h : Shows w v pages) (hopen : w.isOpen = true) (hfatal : w.fatal = none)
    (key : ByteView) : get' key w =
      if Legal key then .ok (getOf v key) w else .error (.status keyTooLarge) w := by
  have hcheck := checkOpen_ok hopen hfatal
  obtain ⟨m, hix, hv⟩ := h
  rw [get', Prog.bind_ok hcheck, Prog.get_bind]
  split
  · rename_i hlegal
    rw [hix.get hv.knowsAll hlegal]
    cases hm : m.get? key with
    | none =>
      rw [getOf, hv.get_none hm]
      rfl
    | some pos =>
      obtain ⟨value, hvalue, hhas⟩ := hv.get_some hm
      have hverify : (Prog.ofOutcome (w.verifyReadPosition key pos) : StoreM Unit) w = .ok () w := by
        rw [verifyReadPosition_ok hix hm]
        rfl
      have hread : (Prog.ofOutcome (w.valueView pos) : StoreM ByteView) w = .ok value w := by
        rw [hhas.2]
        rfl
      have hfound : (Prog.ofOutcome (fromMinpatricia (.ok (Minpatricia.getResult (some pos)))) :
          StoreM Minpatricia.ProbeResult) w = .ok ⟨pos, true⟩ w := rfl
      rw [getOf, hvalue, Prog.bind_ok hfound]
      simp only [Bool.true_eq_false, if_false]
      rw [Prog.bind_ok hverify, Prog.bind_ok hread]
      rfl
  · rename_i hlegal
    have hget : w.index.get w.key key = .error (.status .keyTooLarge) := by
      rw [Index.get, Index.probe, checkKeySize_refused hlegal]
      rfl
    rw [hget]
    rfl

/-- **A store that shows a map answers as the map does.** -/
theorem answer_eq (h : Shows w v pages) (hopen : w.isOpen = true) (hfatal : w.fatal = none)
    (call : ReadCall) : answer call.run w = answerOf v call := by
  have hcheck := checkOpen_ok hopen hfatal
  have hvisit : ∀ {σ : Type} (visit : World → IndexVisit σ) (fn : VisitFunc σ) (s : σ),
      answer (checkOpen >>= fun _ => get >>= fun w => pure (visitIndex w (visit w) fn s)) w =
        .ok (visitIndex w (visit w) fn s) := by
    intro σ visit fn s
    rw [answer, Prog.bind_ok hcheck]
    rfl
  obtain ⟨m, hix, hv⟩ := h
  have hshows : Shows w v pages := ⟨m, hix, hv⟩
  cases call with
  | len =>
    show answer Store.len w = _
    rw [answer, Store.len, Prog.bind_ok hcheck, Prog.get_bind, answerOf, lenOf, hv.size_eq,
      ← hix.count_eq]
    rfl
  | get key =>
    have hrun := get_answer hshows hopen hfatal key
    rw [answerOf]
    by_cases hlegal : Legal key
    · rw [if_pos hlegal] at hrun ⊢
      exact answer_ok hrun
    · rw [if_neg hlegal] at hrun ⊢
      exact answer_error hrun
  | scan fn s =>
    refine (hvisit (fun w => Minpatricia.ascend w.key w.index) fn s).trans ?_
    exact congrArg _ (visit_all hix hv .ascend fn s)
  | scanRange ge lt fn s =>
    show answer (Store.scanRange ge lt fn s) w = _
    rw [Store.scanRange, answerOf]
    by_cases hcrossed : lt < ge
    · rw [if_pos (Minpatricia.compareKeys_pos.mpr hcrossed), if_pos hcrossed]
      rfl
    · rw [if_neg (fun h => hcrossed (Minpatricia.compareKeys_pos.mp h)), if_neg hcrossed,
        hvisit (fun w => Minpatricia.ascendRange w.key w.index ge lt), ascendRange_eq hshows]
      split <;> rfl
  | reverseScan fn s =>
    refine (hvisit (fun w => Minpatricia.descend w.key w.index) fn s).trans ?_
    exact congrArg _ (visit_all hix hv .descend fn s)
  | reverseScanRange le gt fn s =>
    show answer (Store.reverseScanRange le gt fn s) w = _
    rw [Store.reverseScanRange, answerOf]
    by_cases hcrossed : le < gt
    · rw [if_pos (Minpatricia.compareKeys_pos.mpr hcrossed), if_pos hcrossed]
      rfl
    · rw [if_neg (fun h => hcrossed (Minpatricia.compareKeys_pos.mp h)), if_neg hcrossed,
        hvisit (fun w => Minpatricia.descendRange w.key w.index le gt), descendRange_eq hshows]
      split <;> rfl
  | seekGE key =>
    have hrun : Store.seekGE key w = seekResult (visitIndex w _ seekVisitor _) w :=
      (Prog.bind_ok hcheck).trans (Prog.get_bind _ _)
    rw [seekGE_eq hshows] at hrun
    rw [answerOf]
    by_cases hlegal : Legal key
    · rw [if_pos hlegal] at hrun ⊢
      exact answer_ok hrun
    · rw [if_neg hlegal] at hrun ⊢
      exact answer_error hrun
  | seekLE key =>
    have hrun : Store.seekLE key w = seekResult (visitIndex w _ seekVisitor _) w :=
      (Prog.bind_ok hcheck).trans (Prog.get_bind _ _)
    rw [seekLE_eq hshows] at hrun
    rw [answerOf]
    by_cases hlegal : Legal key
    · rw [if_pos hlegal] at hrun ⊢
      exact answer_ok hrun
    · rw [if_neg hlegal] at hrun ⊢
      exact answer_error hrun

/-- **Two stores that show one map** answer the same. -/
theorem sameAnswers_of_shows (h : Shows w v pages) (h' : Shows w' v pages')
    (hopen : w.isOpen = true) (hopen' : w'.isOpen = true) (hfatal : w.fatal = none)
    (hfatal' : w'.fatal = none) : SameAnswers w w' := fun call =>
  (answer_eq h hopen hfatal call).trans (answer_eq h' hopen' hfatal' call).symm

end Answers

end MinweightStore.Store
