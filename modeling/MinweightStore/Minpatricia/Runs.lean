import MinweightStore.Minpatricia.Delete

/-!
# Runs of an index beside a map

An index is created on a fresh node store and called any number of times, each time with a record
store that is right for the moment.  Beside it runs a sorted map.

* `Expected` — what a call answers and leaves, said by the map alone;
* `Simulates` — the index answers as the map does, call after call;
* `index_refines_map` — every run of a new index is simulated by the empty map;
* `Reachable` — the indexes such runs lead to; `Reachable.represents`.
-/

namespace MinweightStore.Minpatricia

open BitKey PagedTree

/-- The answers of a record store at one moment. -/
abbrev RecordStore := Position → Result ByteView

/-! ### Calls -/

/-- A call on the public interface of an index. -/
inductive Call where
  | put (key : ByteView) (pos : Position)
  | delete (key : ByteView)
  | retarget (key : ByteView) (oldPos newPos : Position)
  | get (key : ByteView)
  | probe (key : ByteView)
  | len

/-- The value a call returns. -/
inductive Reply where
  | put (result : PutResult)
  | delete (result : DeleteResult)
  | retargeted
  | probe (result : ProbeResult)
  | len (count : Int32)
  deriving DecidableEq

/-- A call as a program. -/
def Call.run (records : RecordStore) : Call → IndexM Reply
  | .put key pos => Reply.put <$> Minpatricia.put records key pos
  | .delete key => Reply.delete <$> Minpatricia.delete records key
  | .retarget key oldPos newPos => do
    Minpatricia.retarget key oldPos newPos
    pure .retargeted
  | .get key => do
    let ix ← EStateM.get
    Reply.probe <$> Prog.ofOutcome (ix.get records key)
  | .probe key => do
    let ix ← EStateM.get
    Reply.probe <$> Prog.ofOutcome (ix.probe key)
  | .len => do
    let ix ← EStateM.get
    pure (.len ix.len)

/-- The record store knows the keys of all stored positions and of the one being put, and
`Retarget` is called on present keys only. -/
def CallerOk (records : RecordStore) (m : SortedMap ByteView Position) : Call → Prop
  | .put key pos => KnowsAll records m.entries ∧ records pos = .ok key
  | .retarget key _ _ => KnowsAll records m.entries ∧ (m.get? key).isSome
  | _ => KnowsAll records m.entries

/-- **What the map says a call does**: its outcome and the map after it.  The node store has no
number left only after `2 ^ 63 - 1` puts. -/
def Expected (puts : ℕ) (m : SortedMap ByteView Position) (outcome : Result Reply)
    (m' : SortedMap ByteView Position) : Call → Prop
  | .put key pos =>
    if kMaxKeySize < key.length then outcome = err .keyTooLarge ∧ m' = m
    else if 2 ^ 63 ≤ pos.toNat then outcome = err .positionTag ∧ m' = m
    else (outcome = .ok (.put (putResult (m.get? key))) ∧ m' = m.insert key pos) ∨
      (2 ^ 63 - 1 ≤ puts ∧ outcome = err .positionTag ∧ m' = m)
  | .delete key =>
    if kMaxKeySize < key.length then outcome = err .keyTooLarge ∧ m' = m
    else outcome = .ok (.delete (deleteResult (m.get? key))) ∧ m' = m.erase key
  | .retarget key oldPos newPos =>
    if kMaxKeySize < key.length then outcome = err .keyTooLarge ∧ m' = m
    else if 2 ^ 63 ≤ newPos.toNat then outcome = err .positionTag ∧ m' = m
    else if m.get? key = some oldPos then outcome = .ok .retargeted ∧ m' = m.insert key newPos
    else outcome = err .positionMismatch ∧ m' = m
  | .get key =>
    if kMaxKeySize < key.length then outcome = err .keyTooLarge ∧ m' = m
    else outcome = .ok (.probe (getResult (m.get? key))) ∧ m' = m
  | .probe key =>
    m' = m ∧
    if kMaxKeySize < key.length then outcome = err .keyTooLarge
    else match m.get? key with
      | some pos => outcome = .ok (.probe ⟨pos, true⟩)
      | none => (m = SortedMap.empty ∧ outcome = .ok (.probe ⟨0, false⟩)) ∨
        ∃ e ∈ m.entries, outcome = .ok (.probe ⟨e.2, true⟩)
  | .len => ∃ count : Int32, outcome = .ok (.len count) ∧ count.toInt = m.size ∧ m' = m

/-- The outcome of a call and the index after it. -/
def Call.outcome (records : RecordStore) (call : Call) (ix : Index) : Result Reply × Index :=
  match call.run records ix with
  | .ok reply ix' => (.ok reply, ix')
  | .error fault ix' => (.error fault, ix')

/-- Whether a call is a `Put`. -/
def Call.isPut : Call → Bool
  | .put _ _ => true
  | _ => false

/-- **The index does what the map does**, call after call, as long as its caller keeps the contract
and at most `2 ^ 31 - 1` keys are present.  A call that fails leaves the index as it was. -/
def Simulates (puts : ℕ) (ix : Index) (m : SortedMap ByteView Position) :
    List (RecordStore × Call) → Prop
  | [] => True
  | (records, call) :: rest => CallerOk records m call → m.size < 2 ^ 31 →
    ∃ m', Expected puts m (call.outcome records ix).1 m' call ∧
      (∀ fault, (call.outcome records ix).1 = .error fault → (call.outcome records ix).2 = ix) ∧
      Simulates (if call.isPut then puts + 1 else puts) (call.outcome records ix).2 m' rest

/-! ### Creation -/

/-- `RebuildNode` of an empty page writes the same page. -/
theorem rebuildNode_empty (records : RecordStore) {ix : Index} {id : UInt64}
    (hpage : ix.nodes.page? id = some NodePage.empty) :
    WritesPage (rebuildNode records id) ix id NodePage.empty := by
  have hclear : clearRoutes { NodePage.empty with firstPos := 0, lastPos := 0 }
      = NodePage.empty := rfl
  have hwrite := writesPage_writePage NodePage.empty hpage
  unfold WritesPage rebuildNode
  rw [Prog.bind_ok (derefNode_run hpage), if_pos (show NodePage.empty.size = 0 from rfl),
    rebuildEmpty, hclear]
  exact hwrite

section Creation

variable {records : RecordStore} {ns : HeapNodeStore} {root : NodePage} {total : Int32}

/-- **`OpenWithNodes`** keeps the node store and counts the records. -/
theorem openWithNodes_eq (hroot : ns.page? HeapNodeStore.root = some root)
    (hcount : countRecords ns (ns.nodes.length + 1) root = .ok total) :
    openWithNodes records ns = .ok ⟨ns, HeapNodeStore.root, total⟩ := by
  have hpage : nodeByID HeapNodeStore.root ⟨ns, HeapNodeStore.root, 0⟩ = .ok root _ :=
    nodeByID_run hroot
  unfold openWithNodes newIndex
  simp only [Bool.false_eq_true, if_false]
  rw [Prog.bind_ok hpage, Prog.bind_ok hpage, Prog.bind_ok (readNodes_run hcount)]
  rfl

/-- **`NewWithNodes`** on a root page whose rebuild writes the same page keeps all pages and counts
the records. -/
theorem newWithNodes_run (hroot : ns.page? HeapNodeStore.root = some root)
    (hrebuild : WritesPage (rebuildNode records HeapNodeStore.root) ⟨ns, HeapNodeStore.root, 0⟩
      HeapNodeStore.root root)
    (hcount : ∀ ns' : HeapNodeStore, ns'.page? = ns.page? →
      countRecords ns' (ns.nodes.length + 1) root = .ok total) :
    ∃ ns', newWithNodes records ns = .ok ⟨ns', HeapNodeStore.root, total⟩ ∧
      ns'.page? = ns.page? ∧ ns'.nodes.length = ns.nodes.length := by
  obtain ⟨ns', hrun, hlen, hpages⟩ := hrebuild
  have hsame : ns'.page? = ns.page? := by
    rw [hpages]
    show Function.update ns.page? HeapNodeStore.root (some root) = _
    rw [← hroot, Function.update_eq_self]
  have hpage : ns'.page? HeapNodeStore.root = some root := by rw [hsame, hroot]
  refine ⟨ns', ?_, hsame, hlen⟩
  unfold newWithNodes newIndex
  simp only [if_true]
  rw [Prog.bind_ok (nodeByID_run hroot), Prog.bind_ok hrun,
    Prog.bind_ok (nodeByID_run hpage), Prog.bind_ok (readNodes_run (hcount ns' hsame))]
  rfl

end Creation

/-- **`NewWithNodes`** on a fresh node store gives an index for the empty map. -/
theorem newWithNodes_eq (records : RecordStore) : ∃ ix,
    newWithNodes records HeapNodeStore.new = .ok ix ∧ Represents ix none ∧
      ix.nodes.nodes.length = 1 := by
  have hroot : HeapNodeStore.new.page? HeapNodeStore.root = some NodePage.empty := rfl
  obtain ⟨ns, hnew, hsame, hlen⟩ := newWithNodes_run hroot (rebuildNode_empty records hroot)
    (fun ns' _ => show countRecords ns' _ NodePage.empty = .ok 0 from rfl)
  refine ⟨_, hnew, ⟨rfl, rfl, by rw [hsame]; exact hroot, fun j => ?_⟩, hlen⟩
  show (ns.page? j).isSome ↔ _
  rw [hsame]
  show ([some NodePage.empty][j.toNat]?.join).isSome ↔ j = HeapNodeStore.root
  cases hj : j.toNat with
  | zero => simp [← UInt64.toNat_inj, hj, HeapNodeStore.root]
  | succ n => simp [← UInt64.toNat_inj, hj, HeapNodeStore.root]

/-! ### One call -/

section Step

variable {records : RecordStore} {ix : Index} {o : Option Tree} {key : ByteView}

theorem outcome_ok {call : Call} {reply : Reply} {ix' : Index}
    (h : call.run records ix = .ok reply ix') : call.outcome records ix = (.ok reply, ix') := by
  rw [Call.outcome, h]

theorem outcome_error {call : Call} {fault : Fault StatusCode} {ix' : Index}
    (h : call.run records ix = .error fault ix') :
    call.outcome records ix = (.error fault, ix') := by
  rw [Call.outcome, h]

theorem map_ok {α β : Type} {f : α → β} {m : IndexM α} {a : α} {ix ix' : Index}
    (h : m ix = .ok a ix') : (f <$> m) ix = .ok (f a) ix' := by
  rw [map_eq_pure_bind, Prog.bind_ok h]
  rfl

theorem map_error {α β : Type} {f : α → β} {m : IndexM α} {fault : Fault StatusCode}
    {ix ix' : Index} (h : m ix = .error fault ix') : (f <$> m) ix = .error fault ix' := by
  rw [map_eq_pure_bind, Prog.bind_error h]

/-- A call that is refused before it reads a page. -/
theorem ofOutcome_err {α β : Type} {f : α → IndexM β} {x : Result α} {code : StatusCode}
    (h : x = err code) : (Prog.ofOutcome x >>= f) ix = .error (.status code) ix := by
  subst h
  rfl

theorem putWith_tooLarge {alloc : IndexM UInt64} {pos : Position}
    (hkey : kMaxKeySize < key.length) :
    putWith alloc records key pos ix = .error (.status .keyTooLarge) ix :=
  ofOutcome_err (checkKeySize_err (Nat.not_le.mpr hkey))

theorem putWith_tagged {alloc : IndexM UInt64} {pos : Position} (hkey : key.length ≤ kMaxKeySize)
    (hp : 2 ^ 63 ≤ pos.toNat) :
    putWith alloc records key pos ix = .error (.status .positionTag) ix := by
  rw [putWith, Prog.bind_ok (ofOutcome_run (checkKeySize_ok hkey))]
  exact ofOutcome_err (Rep.makeRecord_err (Nat.not_lt.mpr hp))

theorem put_tooLarge {pos : Position} (hkey : kMaxKeySize < key.length) :
    put records key pos ix = .error (.status .keyTooLarge) ix := putWith_tooLarge hkey

theorem put_tagged {pos : Position} (hkey : key.length ≤ kMaxKeySize) (hp : 2 ^ 63 ≤ pos.toNat) :
    put records key pos ix = .error (.status .positionTag) ix := putWith_tagged hkey hp

theorem delete_tooLarge (hkey : kMaxKeySize < key.length) :
    delete records key ix = .error (.status .keyTooLarge) ix :=
  ofOutcome_err (checkKeySize_err (Nat.not_le.mpr hkey))

theorem retarget_tooLarge {oldPos newPos : Position} (hkey : kMaxKeySize < key.length) :
    retarget key oldPos newPos ix = .error (.status .keyTooLarge) ix :=
  ofOutcome_err (checkKeySize_err (Nat.not_le.mpr hkey))

theorem retarget_tagged {oldPos newPos : Position} (hkey : key.length ≤ kMaxKeySize)
    (hp : 2 ^ 63 ≤ newPos.toNat) :
    retarget key oldPos newPos ix = .error (.status .positionTag) ix := by
  rw [retarget, Prog.bind_ok (ofOutcome_run (checkKeySize_ok hkey))]
  exact ofOutcome_err (Rep.makeRecord_err (Nat.not_lt.mpr hp))

theorem probe_tooLarge (hkey : kMaxKeySize < key.length) : ix.probe key = err .keyTooLarge := by
  rw [Index.probe, checkKeySize_err (Nat.not_le.mpr hkey)]
  rfl

theorem get_tooLarge (hkey : kMaxKeySize < key.length) : ix.get records key = err .keyTooLarge := by
  rw [Index.get, probe_tooLarge hkey]
  rfl

/-- `Len` is the size of the map. -/
theorem len_spec (h : Represents ix o) (hsize : (toMap h).size < 2 ^ 31) :
    ix.len.toInt = (toMap h).size := by
  have hcount : ix.count = Int32.ofNat (entriesOf o).length := by
    cases o with
    | none => exact h.2.1
    | some t => exact h.2.1
  rw [Index.len, hcount]
  exact Int32.toInt_ofNat_of_lt hsize

/-- A call of the simulation: what is expected happens, and the index stands for the new map. -/
def StepOk (records : RecordStore) (puts : ℕ) (ix : Index) (m : SortedMap ByteView Position)
    (call : Call) : Prop :=
  ∃ m' o', ∃ h' : Represents (call.outcome records ix).2 o', toMap h' = m' ∧
    Expected puts m (call.outcome records ix).1 m' call ∧
    (∀ fault, (call.outcome records ix).1 = .error fault → (call.outcome records ix).2 = ix) ∧
    (call.outcome records ix).2.nodes.nodes.length
      ≤ (if call.isPut then puts + 1 else puts) + 1

/-- A call that fails and changes nothing. -/
theorem stepOk_fail {puts : ℕ} {call : Call} (code : StatusCode)
    (h : Represents ix o) (hlen : ix.nodes.nodes.length ≤ puts + 1)
    (hrun : call.run records ix = .error (.status code) ix)
    (hexp : Expected puts (toMap h) (err code) (toMap h) call) :
    StepOk records puts ix (toMap h) call := by
  have hout := outcome_error hrun
  refine ⟨toMap h, o, ?_⟩
  rw [hout]
  exact ⟨h, rfl, hexp, fun _ _ => rfl, by simp only; split <;> omega⟩

/-- A call that only reads. -/
theorem stepOk_read {puts : ℕ} {call : Call} (reply : Reply)
    (h : Represents ix o) (hlen : ix.nodes.nodes.length ≤ puts + 1)
    (hrun : call.run records ix = .ok reply ix)
    (hexp : Expected puts (toMap h) (.ok reply) (toMap h) call) :
    StepOk records puts ix (toMap h) call := by
  have hout := outcome_ok hrun
  refine ⟨toMap h, o, ?_⟩
  rw [hout]
  exact ⟨h, rfl, hexp, fun _ hf => absurd hf (by simp), by simp only; split <;> omega⟩

/-- A call that answers and leaves an index for a new map. -/
theorem stepOk_answers {α : Type} {puts grow : ℕ} {call : Call} {m : IndexM α} {a : α}
    {map : SortedMap ByteView Position} (reply : Reply) (h : Represents ix o)
    (hlen : ix.nodes.nodes.length ≤ puts + 1) (hans : Answers m ix a map grow)
    (hgrow : grow ≤ if call.isPut then 1 else 0)
    (hrun : ∀ ix', m ix = .ok a ix' → call.run records ix = .ok reply ix')
    (hexp : Expected puts (toMap h) (.ok reply) map call) :
    StepOk records puts ix (toMap h) call := by
  obtain ⟨ix', o', h', hm, hmap, hgrown⟩ := hans
  have hout := outcome_ok (hrun ix' hm)
  refine ⟨map, o', ?_⟩
  rw [hout]
  refine ⟨h', hmap, hexp, fun _ hf => absurd hf (by simp), ?_⟩
  simp only
  split at hgrow <;> rename_i hp
  · rw [if_pos hp]
    omega
  · rw [if_neg hp]
    omega

/-- **One call of the simulation.** -/
theorem stepOk {puts : ℕ} (h : Represents ix o) (hlen : ix.nodes.nodes.length ≤ puts + 1)
    {call : Call} (hok : CallerOk records (toMap h) call) (hsize : (toMap h).size < 2 ^ 31) :
    StepOk records puts ix (toMap h) call := by
  cases call with
  | put key pos =>
    obtain ⟨hk, hnew⟩ := hok
    by_cases hkey : kMaxKeySize < key.length
    · refine stepOk_fail _ h hlen (map_error (put_tooLarge hkey)) ?_
      rw [Expected, if_pos hkey]
      exact ⟨rfl, rfl⟩
    · have hkey' := Nat.not_lt.mp hkey
      by_cases hp : 2 ^ 63 ≤ pos.toNat
      · refine stepOk_fail _ h hlen (map_error (put_tagged hkey' hp)) ?_
        rw [Expected, if_neg hkey, if_pos hp]
        exact ⟨rfl, rfl⟩
      · rcases put_spec h hk hkey' (Nat.not_le.mp hp) hnew with hans | ⟨hrun, hfull⟩
        · refine stepOk_answers _ h hlen hans (by simp [Call.isPut]) (fun ix' hm => map_ok hm) ?_
          rw [Expected, if_neg hkey, if_neg hp]
          exact Or.inl ⟨rfl, rfl⟩
        · refine stepOk_fail _ h hlen (map_error hrun) ?_
          rw [Expected, if_neg hkey, if_neg hp]
          exact Or.inr ⟨by omega, rfl, rfl⟩
  | delete key =>
    by_cases hkey : kMaxKeySize < key.length
    · refine stepOk_fail _ h hlen (map_error (delete_tooLarge hkey)) ?_
      rw [Expected, if_pos hkey]
      exact ⟨rfl, rfl⟩
    · refine stepOk_answers _ h hlen (delete_spec h hok (Nat.not_lt.mp hkey)) (by simp [Call.isPut])
        (fun ix' hm => map_ok hm) ?_
      rw [Expected, if_neg hkey]
      exact ⟨rfl, rfl⟩
  | retarget key oldPos newPos =>
    obtain ⟨_, hpresent⟩ := hok
    by_cases hkey : kMaxKeySize < key.length
    · refine stepOk_fail _ h hlen (Prog.bind_error (retarget_tooLarge hkey)) ?_
      rw [Expected, if_pos hkey]
      exact ⟨rfl, rfl⟩
    · have hkey' := Nat.not_lt.mp hkey
      by_cases hp : 2 ^ 63 ≤ newPos.toNat
      · refine stepOk_fail _ h hlen (Prog.bind_error (retarget_tagged hkey' hp)) ?_
        rw [Expected, if_neg hkey, if_pos hp]
        exact ⟨rfl, rfl⟩
      · by_cases hget : (toMap h).get? key = some oldPos
        · refine stepOk_answers .retargeted h hlen
            (retarget_spec h hkey' (Nat.not_le.mp hp) hget) (by simp [Call.isPut]) (fun ix' hm => ?_) ?_
          · rw [Call.run, Prog.bind_ok hm]
            rfl
          · rw [Expected, if_neg hkey, if_neg hp, if_pos hget]
            exact ⟨rfl, rfl⟩
        · obtain ⟨v, hv⟩ := Option.isSome_iff_exists.mp hpresent
          refine stepOk_fail _ h hlen (Prog.bind_error (retarget_mismatch h hkey' (Nat.not_le.mp hp) hv
            (fun he => hget (he ▸ hv)))) ?_
          rw [Expected, if_neg hkey, if_neg hp, if_neg hget]
          exact ⟨rfl, rfl⟩
  | get key =>
    by_cases hkey : kMaxKeySize < key.length
    · refine stepOk_fail .keyTooLarge h hlen (map_error ?_) ?_
      · show (Prog.ofOutcome (ix.get records key)) ix = _
        rw [get_tooLarge hkey]
        rfl
      · rw [Expected, if_pos hkey]
        exact ⟨rfl, rfl⟩
    · refine stepOk_read _ h hlen (map_ok (ofOutcome_run (get_spec h hok (Nat.not_lt.mp hkey)))) ?_
      rw [Expected, if_neg hkey]
      exact ⟨rfl, rfl⟩
  | probe key =>
    by_cases hkey : kMaxKeySize < key.length
    · refine stepOk_fail .keyTooLarge h hlen (map_error ?_) ?_
      · show (Prog.ofOutcome (ix.probe key)) ix = _
        rw [probe_tooLarge hkey]
        rfl
      · rw [Expected, if_pos hkey]
        exact ⟨rfl, rfl⟩
    · have hkey' := Nat.not_lt.mp hkey
      cases hget : (toMap h).get? key with
      | some v =>
        refine stepOk_read _ h hlen (map_ok (ofOutcome_run (probe_of_get? h hkey' hget))) ?_
        rw [Expected, if_neg hkey, hget]
        exact ⟨rfl, rfl⟩
      | none =>
        rcases probe_cases h hkey' with ⟨hempty, hrun⟩ | ⟨e, he, hrun⟩
        · refine stepOk_read _ h hlen (map_ok (ofOutcome_run hrun)) ?_
          rw [Expected, if_neg hkey, hget]
          exact ⟨rfl, Or.inl ⟨hempty, rfl⟩⟩
        · refine stepOk_read _ h hlen (map_ok (ofOutcome_run hrun)) ?_
          rw [Expected, if_neg hkey, hget]
          exact ⟨rfl, Or.inr ⟨e, he, rfl⟩⟩
  | len =>
    refine stepOk_read (.len ix.len) h hlen rfl ?_
    rw [Expected]
    exact ⟨ix.len, rfl, len_spec h hsize, rfl⟩

end Step

/-! ### Runs -/

theorem simulates_of_represents : ∀ (calls : List (RecordStore × Call)) {puts : ℕ} {ix : Index}
    {o : Option Tree} (h : Represents ix o), ix.nodes.nodes.length ≤ puts + 1 →
    Simulates puts ix (toMap h) calls
  | [], _, _, _, _, _ => trivial
  | (records, call) :: rest, puts, ix, o, h, hlen => by
    intro hok hsize
    obtain ⟨m', o', h', hmap, hexp, hkeep, hlen'⟩ := stepOk h hlen hok hsize
    exact ⟨m', hexp, hkeep, hmap ▸ simulates_of_represents rest h' hlen'⟩

/-- **The index refines a finite ordered map.**  A new index on a fresh node store, called any
number of times, answers every call as the map beside it does. -/
theorem index_refines_map (records : RecordStore) (calls : List (RecordStore × Call)) :
    ∃ ix, newWithNodes records HeapNodeStore.new = .ok ix ∧
      Simulates 0 ix SortedMap.empty calls := by
  obtain ⟨ix, hnew, hrep, hlen⟩ := newWithNodes_eq records
  exact ⟨ix, hnew, simulates_of_represents calls hrep (by omega)⟩

/-- The indexes that successful updates by a correct caller lead to, with their maps. -/
inductive Reachable : Index → SortedMap ByteView Position → Prop where
  | new {records : RecordStore} {ix : Index} :
    newWithNodes records HeapNodeStore.new = .ok ix → Reachable ix SortedMap.empty
  | put {records : RecordStore} {ix ix' : Index} {m : SortedMap ByteView Position}
    {key : ByteView} {pos : Position} {result : PutResult} : Reachable ix m →
    KnowsAll records m.entries → records pos = .ok key →
    Minpatricia.put records key pos ix = .ok result ix' → Reachable ix' (m.insert key pos)
  | delete {records : RecordStore} {ix ix' : Index} {m : SortedMap ByteView Position}
    {key : ByteView} {result : DeleteResult} : Reachable ix m → KnowsAll records m.entries →
    Minpatricia.delete records key ix = .ok result ix' → Reachable ix' (m.erase key)
  | retarget {ix ix' : Index} {m : SortedMap ByteView Position} {key : ByteView}
    {oldPos newPos : Position} : Reachable ix m → (m.get? key).isSome →
    Minpatricia.retarget key oldPos newPos ix = .ok () ix' → Reachable ix' (m.insert key newPos)

/-- **Every reachable index represents its map.** -/
theorem Reachable.represents {ix : Index} {m : SortedMap ByteView Position}
    (h : Reachable ix m) : ∃ o, ∃ hr : Represents ix o, toMap hr = m := by
  induction h with
  | new hnew =>
    rename_i records ix
    obtain ⟨ix', hnew', hrep, _⟩ := newWithNodes_eq records
    obtain rfl : ix = ix' := Except.ok.inj (hnew.symm.trans hnew')
    exact ⟨none, hrep, rfl⟩
  | put hreach hk hnew hrun ih =>
    rename_i records ix ix' m key pos result
    obtain ⟨o, hr, rfl⟩ := ih
    have hkey : key.length ≤ kMaxKeySize := by
      by_contra hkey
      rw [put_tooLarge (Nat.not_le.mp hkey)] at hrun
      exact absurd hrun (by simp)
    have hp : pos.toNat < 2 ^ 63 := by
      by_contra hp
      rw [put_tagged hkey (Nat.not_lt.mp hp)] at hrun
      exact absurd hrun (by simp)
    rcases put_spec hr hk hkey hp hnew with ⟨ix'', o', h', hrun', hmap, _⟩ | ⟨hrun', _⟩
    · rw [hrun'] at hrun
      obtain ⟨_, rfl⟩ := EStateM.Result.ok.inj hrun
      exact ⟨o', h', hmap⟩
    · rw [hrun'] at hrun
      exact absurd hrun (by simp)
  | delete hreach hk hrun ih =>
    rename_i records ix ix' m key result
    obtain ⟨o, hr, rfl⟩ := ih
    have hkey : key.length ≤ kMaxKeySize := by
      by_contra hkey
      rw [delete_tooLarge (Nat.not_le.mp hkey)] at hrun
      exact absurd hrun (by simp)
    obtain ⟨ix'', o', h', hrun', hmap, _⟩ := delete_spec hr hk hkey
    rw [hrun'] at hrun
    obtain ⟨_, rfl⟩ := EStateM.Result.ok.inj hrun
    exact ⟨o', h', hmap⟩
  | retarget hreach hpresent hrun ih =>
    rename_i ix ix' m key oldPos newPos
    obtain ⟨o, hr, rfl⟩ := ih
    have hkey : key.length ≤ kMaxKeySize := by
      by_contra hkey
      rw [retarget_tooLarge (Nat.not_le.mp hkey)] at hrun
      exact absurd hrun (by simp)
    have hp : newPos.toNat < 2 ^ 63 := by
      by_contra hp
      rw [retarget_tagged hkey (Nat.not_lt.mp hp)] at hrun
      exact absurd hrun (by simp)
    obtain ⟨v, hv⟩ := Option.isSome_iff_exists.mp hpresent
    by_cases hvo : v = oldPos
    · subst hvo
      obtain ⟨ix'', o', h', hrun', hmap, _⟩ := retarget_spec hr hkey hp hv
      rw [hrun'] at hrun
      obtain ⟨_, rfl⟩ := EStateM.Result.ok.inj hrun
      exact ⟨o', h', hmap⟩
    · rw [retarget_mismatch hr hkey hp hv hvo] at hrun
      exact absurd hrun (by simp)

/-! ### Indexes of many keys -/

/-- The first `n` numbered keys, at their positions. -/
def numberedKeys : ℕ → SortedMap ByteView Position
  | 0 => .empty
  | n + 1 => (numberedKeys n).insert (numberedKey n) (UInt64.ofNat n)

theorem mem_numberedKeys {n : ℕ} {e : ByteView × Position} (h : e ∈ (numberedKeys n).entries) :
    ∃ i < n, e = (numberedKey i, UInt64.ofNat i) := by
  induction n with
  | zero => exact absurd h List.not_mem_nil
  | succ n ih =>
    rcases (SortedMap.mem_insert _ _ _ _).mp h with rfl | ⟨hold, _⟩
    · exact ⟨n, Nat.lt_succ_self n, rfl⟩
    · obtain ⟨i, hi, he⟩ := ih hold
      exact ⟨i, Nat.lt_succ_of_lt hi, he⟩

theorem size_numberedKeys_le (n : ℕ) : (numberedKeys n).size ≤ n := by
  induction n with
  | zero => exact le_refl 0
  | succ n ih => exact le_trans (SortedMap.size_insert_le _ _ _) (Nat.succ_le_succ ih)

theorem knowsAll_numberedKeys {n : ℕ} (hn : n ≤ 2 ^ 63) :
    KnowsAll numberedRecords (numberedKeys n).entries := by
  intro e he
  obtain ⟨i, hi, rfl⟩ := mem_numberedKeys he
  exact numberedRecords_ofNat (by omega)

/-- **They are keys of an index**, by induction on their number: each `Put` takes one page at most. -/
theorem exists_reachable_numberedKeys {n : ℕ} (hn : n < 2 ^ 62) : ∃ ix,
    Reachable ix (numberedKeys n) ∧ ix.nodes.nodes.length ≤ n + 1 := by
  induction n with
  | zero =>
    obtain ⟨ix, hnew, _, hlen⟩ := newWithNodes_eq numberedRecords
    exact ⟨ix, .new hnew, by omega⟩
  | succ n ih =>
    obtain ⟨ix, hreach, hlen⟩ := ih (by omega)
    obtain ⟨o, hr, hmap⟩ := hreach.represents
    have hk := knowsAll_numberedKeys (show n ≤ 2 ^ 63 by omega)
    have hrecord := numberedRecords_ofNat (show n < 2 ^ 64 by omega)
    have hk' : KnowsAll numberedRecords (entriesOf o) := by
      rw [← hmap] at hk
      exact hk
    have hkey : (numberedKey n).length ≤ kMaxKeySize := show 2 ≤ kMaxKeySize by decide
    have hpos : (UInt64.ofNat n).toNat < 2 ^ 63 := by
      rw [UInt64.toNat_ofNat_of_lt' (show n < 2 ^ 64 by omega)]
      omega
    rcases put_spec hr hk' hkey hpos hrecord with
      ⟨ix', _, _, hrun, _, hgrow⟩ | ⟨_, hfull⟩
    · exact ⟨ix', hreach.put hk hrecord hrun, by omega⟩
    · omega

end MinweightStore.Minpatricia
