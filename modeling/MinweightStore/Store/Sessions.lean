import MinweightStore.Base.EventRun
import MinweightStore.Store.Serving

/-!
# Sessions

Processes that work on one directory, one after the other.  File-system calls may fail, and a process
may be killed at any of them and between any two bytes that it stores into a record, and between the
fields of a header; it then ends, and a new one takes its place.  A process may also end between two
calls, and it ends behind one that fails because a file-system call has failed.

* `Event`, `CallStep`, `SessionStep` — what such processes do, with what they show;
* `DurableMap` — the abstract machine: a map that is there for good, and a store that is open or not;
* `simulates_step`, `sessions_refine_map` — **the store is a durable map**;
* `call_progress` — a call returns, or is killed, unless a file-system call fails.
-/

namespace MinweightStore.Store

open Minpatricia (ByteView Position Index kMaxKeySize)

/-! ### Events -/

/-- **What can be seen of processes**: calls with their replies, calls that are broken off, and ends. -/
inductive Event : Type 1 where
  | read (call : ReadCall) (reply : Result call.Reply)
  | openStore (options : Options) (reply : Except Status Unit)
  | put (key value : ByteView) (reply : Except Status Unit)
  | delete (key : ByteView) (reply : Except Status Bool)
  | close (reply : Except Status Unit)
  | broken (call : PublicCall)
  | exit

/-- A call that has returned a value. -/
def Event.Succeeds : Event → Prop
  | read _ _ => True
  | openStore _ reply => reply = .ok ()
  | put _ _ reply => reply = .ok ()
  | delete _ reply => ∃ found, reply = .ok found
  | close reply => reply = .ok ()
  | broken _ => True
  | exit => True

namespace PublicCall

/-- The state in which a call ends, wherever that is. -/
def final (env : Env) (w : World) : PublicCall → World
  | read call => Prog.final call.run w
  | openStore options => Prog.final (Store.openStore env options) w
  | put key value => Prog.final (Store.put env key value) w
  | delete key => Prog.final (Store.delete env key) w
  | close => Prog.final (Store.close env) w

/-- A call in which the process is killed. -/
def Killed (env : Env) (w : World) : PublicCall → Prop
  | read call => ∃ w', call.run w = .error .killed w'
  | openStore options => ∃ w', Store.openStore env options w = .error .killed w'
  | put key value => ∃ w', Store.put env key value w = .error .killed w'
  | delete key => ∃ w', Store.delete env key w = .error .killed w'
  | close => ∃ w', Store.close env w = .error .killed w'

/-- **What a call makes of a map.** -/
def behind (walSize : ℕ) (v : SortedMap ByteView ByteView) : PublicCall → SortedMap ByteView ByteView
  | put key value => putMap walSize key value v
  | delete key => deleteMap key v
  | _ => v

end PublicCall

/-- **One public call** that returns, with a value or a status. -/
inductive CallStep (env : Env) (w : World) : PublicCall → Event → World → Prop where
  | read {call : ReadCall} (settled : call.Settled (answer call.run w)) :
      CallStep env w (.read call) (.read call (answer call.run w)) (Prog.final call.run w)
  | openStore {options : Options} {reply : Except Status Unit} {w' : World}
      (run : Prog.attempt (openStore env options) w = .ok reply w') :
      CallStep env w (.openStore options) (.openStore options reply) w'
  | put {key value : ByteView} {reply : Except Status Unit} {w' : World}
      (run : Prog.attempt (put env key value) w = .ok reply w') :
      CallStep env w (.put key value) (.put key value reply) w'
  | delete {key : ByteView} {reply : Except Status Bool} {w' : World}
      (run : Prog.attempt (delete env key) w = .ok reply w') :
      CallStep env w (.delete key) (.delete key reply) w'
  | close {reply : Except Status Unit} {w' : World}
      (run : Prog.attempt (close env) w = .ok reply w') : CallStep env w .close (.close reply) w'

/-- Stores are opened one at a time, and with one size of segments. -/
def Allowed (walSize : ℕ) (w : World) : PublicCall → Prop
  | .openStore options => w.isOpen = false ∧ options.walSize = walSize
  | _ => True

/-- An open store is within its limits. -/
def WithinLimits (w : World) : Prop :=
  w.isOpen = true → ∀ v pages, Shows w v pages → Limits w v

/-- **One step of a session.**  A process goes on behind a call that succeeds, or in which no
file-system call fails; else it ends there, and a new one takes its place.  Where it is killed at a
header, it leaves whole fields, and no header is torn. -/
inductive SessionStep (walSize : ℕ) (w : World) : Event → World → Prop where
  | call {env : Env} {call : PublicCall} {event : Event} {w' : World}
      (succeeds : env.Fails → event.Succeeds) (allowed : Allowed walSize w call)
      (limits : WithinLimits w) (step : CallStep env w call event w') : SessionStep walSize w event w'
  | broken {env : Env} {call : PublicCall} (allowed : Allowed walSize w call)
      (limits : WithinLimits w) (whole : LeavesWhole env (call.final env w).disk) :
      SessionStep walSize w (.broken call) (World.boot (call.final env w).disk)
  | exit : SessionStep walSize w .exit (World.boot w.disk)

/-! ### The abstract machine -/

/-- **A durable map**, and whether a store is open on it. -/
structure DurableMap where
  map : SortedMap ByteView ByteView
  isOpen : Bool

/-- The status of a store that is closed. -/
def storeClosed : Status := ⟨.closed, "store is closed"⟩

/-- **What a durable map does.**  A call that is broken off has been made, or has not. -/
inductive DurableMap.Step (walSize : ℕ) : DurableMap → Event → DurableMap → Prop where
  | read (v : SortedMap ByteView ByteView) (call : ReadCall) :
      Step walSize ⟨v, true⟩ (.read call (answerOf v call)) ⟨v, true⟩
  | readClosed (v : SortedMap ByteView ByteView) (call : ReadCall) (status : Status) :
      Step walSize ⟨v, false⟩ (.read call (err status)) ⟨v, false⟩
  | openStore (v : SortedMap ByteView ByteView) (options : Options) :
      Step walSize ⟨v, false⟩ (.openStore options (.ok ())) ⟨v, true⟩
  | put (v : SortedMap ByteView ByteView) (key value : ByteView) :
      Step walSize ⟨v, true⟩ (.put key value (putReply walSize key value))
        ⟨putMap walSize key value v, true⟩
  | putClosed (v : SortedMap ByteView ByteView) (key value : ByteView) :
      Step walSize ⟨v, false⟩ (.put key value (.error storeClosed)) ⟨v, false⟩
  | delete (v : SortedMap ByteView ByteView) (key : ByteView) :
      Step walSize ⟨v, true⟩ (.delete key (deleteReply v key)) ⟨deleteMap key v, true⟩
  | deleteClosed (v : SortedMap ByteView ByteView) (key : ByteView) :
      Step walSize ⟨v, false⟩ (.delete key (.error storeClosed)) ⟨v, false⟩
  | close (s : DurableMap) : Step walSize s (.close (.ok ())) ⟨s.map, false⟩
  | notMade (s : DurableMap) (call : PublicCall) : Step walSize s (.broken call) ⟨s.map, false⟩
  | made (v : SortedMap ByteView ByteView) (call : PublicCall) :
      Step walSize ⟨v, true⟩ (.broken call) ⟨call.behind walSize v, false⟩
  | exit (s : DurableMap) : Step walSize s .exit ⟨s.map, false⟩

/-- **The store simulates the durable map.** -/
structure Simulates (walSize : ℕ) (w : World) (s : DurableMap) : Prop where
  isOpen : w.isOpen = s.isOpen
  holds : DiskHolds walSize s.map w.disk
  deletable : Deletable walSize s.map
  serves : s.isOpen = true → Serves walSize s.map w ∧ w.fatal = none

/-! ### Closed stores -/

section Closed

variable {env : Env} {w : World}

theorem checkOpen_closed (h : w.isOpen = false) :
    checkOpen w = .error (.status storeClosed) w := by
  rw [checkOpen, Prog.get_bind, if_pos h]
  rfl

/-- A closed store refuses to read. -/
theorem answer_closed (h : w.isOpen = false) (call : ReadCall) :
    ∃ status, answer call.run w = err status := by
  have hrefused : ∀ {α : Type} (f : Unit → StoreM α), answer (checkOpen >>= f) w = err storeClosed :=
    fun f => answer_error (Prog.bind_error (checkOpen_closed h))
  cases call with
  | len => exact ⟨_, hrefused _⟩
  | get key => exact ⟨_, hrefused _⟩
  | scan fn s => exact ⟨_, hrefused _⟩
  | scanRange ge lt fn s =>
    by_cases hcrossed : Minpatricia.compareKeys ge lt > 0
    · exact ⟨⟨.invalidArgument, "invalid scan range"⟩, answer_error (by
        show Store.scanRange ge lt fn s w = _
        rw [Store.scanRange, if_pos hcrossed]
        rfl)⟩
    · refine ⟨storeClosed, Eq.trans (congrArg (fun x => answer x w) ?_) (hrefused fun _ => get >>=
        fun w => pure (visitIndex w (Minpatricia.ascendRange w.key w.index ge lt) fn s))⟩
      exact if_neg hcrossed
  | reverseScan fn s => exact ⟨_, hrefused _⟩
  | reverseScanRange le gt fn s =>
    by_cases hcrossed : Minpatricia.compareKeys gt le > 0
    · exact ⟨⟨.invalidArgument, "invalid reverse scan range"⟩, answer_error (by
        show Store.reverseScanRange le gt fn s w = _
        rw [Store.reverseScanRange, if_pos hcrossed]
        rfl)⟩
    · refine ⟨storeClosed, Eq.trans (congrArg (fun x => answer x w) ?_) (hrefused fun _ => get >>=
        fun w => pure (visitIndex w (Minpatricia.descendRange w.key w.index le gt) fn s))⟩
      exact if_neg hcrossed
  | seekGE key => exact ⟨_, hrefused _⟩
  | seekLE key => exact ⟨_, hrefused _⟩

end Closed

/-! ### The simulation -/

section Simulation

variable {env : Env} {w w' : World} {walSize : ℕ} {s : DurableMap} {v : SortedMap ByteView ByteView}
  {d : Disk} {key value : ByteView} {call : PublicCall} {event : Event}

theorem deletable_empty : Deletable walSize .empty := fun _ _ h =>
  absurd h (by simp [SortedMap.get?_empty])

theorem Deletable.putMap (h : Deletable walSize v) :
    Deletable walSize (putMap walSize key value v) := by
  rw [Store.putMap]
  split
  · rename_i hok
    rw [putReply] at hok
    split at hok
    · exact absurd hok Bool.false_ne_true
    split at hok
    · exact absurd hok Bool.false_ne_true
    rename_i hfit
    intro k x hx
    rw [SortedMap.get?_insert] at hx
    split at hx
    · rename_i hk
      subst hk
      simp only [recordSize] at hfit ⊢
      simp only [List.length_nil]
      omega
    · exact h k x hx
  · exact h

theorem Deletable.deleteMap (h : Deletable walSize v) : Deletable walSize (deleteMap key v) := by
  rw [Store.deleteMap]
  split
  · intro k x hx
    rw [SortedMap.get?_erase] at hx
    split at hx
    · exact absurd hx (by simp)
    · exact h k x hx
  · exact h

/-- A new process on a directory that holds a map. -/
theorem simulates_boot (hd : DiskHolds walSize v d) (hdeletable : Deletable walSize v) :
    Simulates walSize (World.boot d) ⟨v, false⟩ :=
  ⟨rfl, hd, hdeletable, fun h => absurd h Bool.false_ne_true⟩

/-- A store that serves a map. -/
theorem simulates_serves (h : Serves walSize v w) (hdeletable : Deletable walSize v)
    (hopen : w.isOpen = true) (hfatal : w.fatal = none) : Simulates walSize w ⟨v, true⟩ :=
  ⟨hopen, h.holds, hdeletable, fun _ => ⟨h, hfatal⟩⟩

theorem Deletable.behind (h : Deletable walSize v) (call : PublicCall) :
    Deletable walSize (call.behind walSize v) := by
  cases call with
  | put key value => exact h.putMap
  | delete key => exact h.deleteMap
  | read call => exact h
  | openStore options => exact h
  | close => exact h

/-- An open store reads its map. -/
theorem Simulates.answers (h : Simulates walSize w s) (hopen : w.isOpen = true) (call : ReadCall) :
    answer call.run w = answerOf s.map call := by
  obtain ⟨hserves, hfatal⟩ := h.serves (h.isOpen.symm.trans hopen)
  obtain ⟨pages, hshows⟩ := hserves.shows
  exact answer_eq hshows hopen hfatal call

/-- `Put` and `Delete` on a closed store are refused, and `Close` does nothing. -/
theorem closed_calls (env : Env) (hclosed : w.isOpen = false) :
    (∀ key value, put env key value w = .error (.status storeClosed) w) ∧
    (∀ key, delete env key w = .error (.status storeClosed) w) ∧ close env w = .ok () w := by
  have hcheck := checkOpen_closed hclosed
  refine ⟨fun _ _ => Prog.bind_error hcheck, fun _ => Prog.bind_error hcheck, ?_⟩
  rw [close, Prog.get_bind, if_pos hclosed]
  rfl

/-- `Open` of a closed store. -/
theorem Simulates.completes_open {options : Options}
    (hlo : kWalHeaderSize + kWalRecordHeaderSize ≤ walSize) (hhi : walSize ≤ kRecordOffsetLimit)
    (hsim : Simulates walSize w ⟨v, false⟩)
    (hallowed : Allowed walSize w (.openStore options)) :
    completes env (HoldsEither walSize v v) (Prog.attempt (openStore env options))
      (Answered env walSize v v (.ok ())) w := by
  obtain ⟨_, rfl⟩ := hallowed
  exact completes_answered (completes_mono (completes_openStore hlo hhi hsim.holds)
    (fun _ hd => Or.inl hd) (fun _ _ h => ⟨rfl, h⟩))

/-- `Close` of an open store. -/
theorem Simulates.completes_close (hsim : Simulates walSize w ⟨v, true⟩)
    (hlimits : Limits w v) :
    completes env (DiskHolds walSize v) (Prog.attempt (close env)) (fun reply w' =>
      (reply = .ok () ∧ w'.isOpen = false ∧ DiskHolds walSize v w'.disk) ∨
      env.Fails ∧ (∃ status, reply = .error status) ∧ DiskHolds walSize v w'.disk) w :=
  completes_attempt (Store.completes_close (hsim.serves rfl).1 hsim.isOpen hlimits)
    (fun _ _ h => Or.inl ⟨rfl, h⟩) (fun hfails status _ hd => Or.inr ⟨hfails, ⟨status, rfl⟩, hd⟩)

/-- **A call on a closed store.** -/
theorem simulates_closed (hlo : kWalHeaderSize + kWalRecordHeaderSize ≤ walSize)
    (hhi : walSize ≤ kRecordOffsetLimit) (hsucceeds : env.Fails → event.Succeeds)
    (hsim : Simulates walSize w ⟨v, false⟩) (hallowed : Allowed walSize w call)
    (hstep : CallStep env w call event w') :
    ∃ s', DurableMap.Step walSize ⟨v, false⟩ event s' ∧ Simulates walSize w' s' := by
  obtain ⟨hput, hdelete, hclose⟩ := closed_calls env hsim.isOpen
  cases hstep with
  | @read call _ =>
    obtain ⟨status, hanswer⟩ := answer_closed hsim.isOpen call
    rw [hanswer, onlyReads_run call w]
    exact ⟨_, .readClosed v call status, hsim⟩
  | openStore hrun =>
    rcases Prog.wp_run_ok (hsim.completes_open hlo hhi hallowed) hrun with
      ⟨rfl, hserves, hisOpen, hfatal⟩ | ⟨hfails, ⟨status, rfl⟩, _⟩
    · exact ⟨_, .openStore v _, simulates_serves hserves hsim.deletable hisOpen hfatal⟩
    · exact nomatch hsucceeds hfails
  | put hrun =>
    rw [Prog.attempt_status (hput _ _)] at hrun
    cases hrun
    exact ⟨_, .putClosed v _ _, hsim⟩
  | delete hrun =>
    rw [Prog.attempt_status (hdelete _)] at hrun
    cases hrun
    exact ⟨_, .deleteClosed v _, hsim⟩
  | close hrun =>
    rw [Prog.attempt_ok hclose] at hrun
    cases hrun
    exact ⟨_, .close _, hsim⟩

/-- **A call on an open store.** -/
theorem simulates_open (hsucceeds : env.Fails → event.Succeeds)
    (hsim : Simulates walSize w ⟨v, true⟩) (hallowed : Allowed walSize w call)
    (hlimits : WithinLimits w) (hstep : CallStep env w call event w') :
    ∃ s', DurableMap.Step walSize ⟨v, true⟩ event s' ∧ Simulates walSize w' s' := by
  have hisOpen := hsim.isOpen
  obtain ⟨hserves, hfatal⟩ := hsim.serves rfl
  obtain ⟨pages, hshows⟩ := hserves.shows
  have hlast := hlimits hisOpen v pages hshows
  cases hstep with
  | @read call _ =>
    rw [answer_eq hshows hisOpen hfatal call, onlyReads_run call w]
    exact ⟨_, .read v call, hsim⟩
  | openStore hrun => exact absurd (hisOpen.symm.trans hallowed.1) Bool.noConfusion
  | put hrun =>
    rcases Prog.wp_run_ok (completes_put hserves hisOpen hfatal hlast _ _) hrun with
      ⟨rfl, hserves', hisOpen', hfatal'⟩ | ⟨hfails, ⟨status, rfl⟩, _⟩
    · exact ⟨_, .put v _ _, simulates_serves hserves' hsim.deletable.putMap hisOpen' hfatal'⟩
    · exact nomatch hsucceeds hfails
  | delete hrun =>
    rcases Prog.wp_run_ok (completes_delete hserves hisOpen hfatal hlast hsim.deletable _)
      hrun with ⟨rfl, hserves', hisOpen', hfatal'⟩ | ⟨hfails, ⟨status, rfl⟩, _⟩
    · exact ⟨_, .delete v _, simulates_serves hserves' hsim.deletable.deleteMap hisOpen' hfatal'⟩
    · obtain ⟨found, hfound⟩ := hsucceeds hfails
      exact nomatch hfound
  | close hrun =>
    rcases Prog.wp_run_ok (hsim.completes_close hlast) hrun with
      ⟨rfl, hclosed, hholds⟩ | ⟨hfails, ⟨status, rfl⟩, _⟩
    · exact ⟨_, .close _, hclosed, hholds, hsim.deletable, fun h => absurd h Bool.false_ne_true⟩
    · exact nomatch hsucceeds hfails

/-- The disk of a program that ends. -/
theorem final_of_completes {α : Type} {D : Disk → Prop} {x : StoreM α}
    {Q : Except Status α → World → Prop} (h : completes env D (Prog.attempt x) Q w)
    (hQ : ∀ reply w', Q reply w' → D w'.disk)
    (hwhole : LeavesWhole env (Prog.final x w).disk) : D (Prog.final x w).disk := by
  have hends : Prog.ends (Prog.attempt x) (fun w' => D w'.disk ∨ ¬ LeavesWhole env w'.disk) w :=
    Prog.wp_mono (completes_ends h hQ) (fun _ _ h => Or.inl h) (fun _ _ h => h.imp_right And.right)
  rw [Prog.ends_iff, Prog.final_attempt] at hends
  exact hends.resolve_right (not_not.mpr hwhole)

theorem Answered.holds {α : Type} {v' : SortedMap ByteView ByteView} {answer reply : Except Status α}
    (h : Answered env walSize v v' answer reply w) : HoldsEither walSize v v' w.disk := by
  rcases h with ⟨_, hserves, _⟩ | ⟨_, _, hholds⟩
  · exact Or.inr hserves.holds
  · exact hholds

/-- **A call that is broken off** has been made, or has not. -/
theorem Simulates.final_holds (hlo : kWalHeaderSize + kWalRecordHeaderSize ≤ walSize)
    (hhi : walSize ≤ kRecordOffsetLimit) (hsim : Simulates walSize w s)
    (hallowed : Allowed walSize w call) (hlimits : WithinLimits w)
    (hwhole : LeavesWhole env (call.final env w).disk) :
    DiskHolds walSize s.map (call.final env w).disk ∨
      s.isOpen = true ∧ DiskHolds walSize (call.behind walSize s.map) (call.final env w).disk := by
  obtain ⟨v, isOpen⟩ := s
  cases isOpen with
  | false =>
    obtain ⟨hput, hdelete, hclose⟩ := closed_calls env hsim.isOpen
    refine Or.inl ?_
    cases call with
    | read call =>
      rw [PublicCall.final, onlyReads_run call w]
      exact hsim.holds
    | openStore options =>
      exact (final_of_completes (hsim.completes_open hlo hhi hallowed)
        (fun _ _ h => h.holds) hwhole).elim id id
    | put key value =>
      rw [PublicCall.final, Prog.final_error (hput key value)]
      exact hsim.holds
    | delete key =>
      rw [PublicCall.final, Prog.final_error (hdelete key)]
      exact hsim.holds
    | close =>
      rw [PublicCall.final, Prog.final_ok hclose]
      exact hsim.holds
  | true =>
    obtain ⟨hserves, hfatal⟩ := hsim.serves rfl
    obtain ⟨pages, hshows⟩ := hserves.shows
    have hlast := hlimits hsim.isOpen v pages hshows
    cases call with
    | read call =>
      rw [PublicCall.final, onlyReads_run call w]
      exact Or.inl hsim.holds
    | openStore options => exact absurd (hsim.isOpen.symm.trans hallowed.1) Bool.noConfusion
    | put key value =>
      exact (final_of_completes (completes_put hserves hsim.isOpen hfatal hlast key value)
        (fun _ _ h => h.holds) hwhole).imp id (fun h => ⟨rfl, h⟩)
    | delete key =>
      exact (final_of_completes (completes_delete hserves hsim.isOpen hfatal hlast
        hsim.deletable key) (fun _ _ h => h.holds) hwhole).imp id (fun h => ⟨rfl, h⟩)
    | close =>
      exact Or.inl (final_of_completes (hsim.completes_close hlast)
        (fun _ _ h => h.elim (fun h => h.2.2) (fun h => h.2.2)) hwhole)

/-- **One step of a session** is one of the durable map. -/
theorem simulates_step (hlo : kWalHeaderSize + kWalRecordHeaderSize ≤ walSize)
    (hhi : walSize ≤ kRecordOffsetLimit) (hsim : Simulates walSize w s)
    (hstep : SessionStep walSize w event w') :
    ∃ s', DurableMap.Step walSize s event s' ∧ Simulates walSize w' s' := by
  cases hstep with
  | call hsucceeds hallowed hlimits hcall =>
    obtain ⟨v, isOpen⟩ := s
    cases isOpen with
    | false => exact simulates_closed hlo hhi hsucceeds hsim hallowed hcall
    | true => exact simulates_open hsucceeds hsim hallowed hlimits hcall
  | broken hallowed hlimits hwhole =>
    rcases hsim.final_holds hlo hhi hallowed hlimits hwhole with hholds | ⟨hopen, hholds⟩
    · exact ⟨_, .notMade s _, simulates_boot hholds hsim.deletable⟩
    · obtain ⟨v, isOpen⟩ := s
      obtain rfl : isOpen = true := hopen
      exact ⟨_, .made v _, simulates_boot hholds (hsim.deletable.behind _)⟩
  | exit => exact ⟨_, .exit s, simulates_boot hsim.holds hsim.deletable⟩

/-- A program that completes returns, or is killed. -/
theorem completes_cases {α : Type} {D : Disk → Prop} {x : StoreM α}
    {Q : Except Status α → World → Prop} (henv : ¬ env.Fails)
    (h : completes env D (Prog.attempt x) Q w) :
    (∃ reply w', Prog.attempt x w = .ok reply w') ∨ ∃ w', x w = .error .killed w' := by
  cases hrun : Prog.attempt x w with
  | ok reply w' => exact Or.inl ⟨reply, w', rfl⟩
  | error fault w' =>
    obtain rfl := ((Prog.wp_run_error h hrun).1.killed henv).1
    exact Or.inr ⟨w', Prog.attempt_killed.mp hrun⟩

/-- **A call returns or is killed**, in every state that simulates the map. -/
theorem call_progress (hlo : kWalHeaderSize + kWalRecordHeaderSize ≤ walSize)
    (hhi : walSize ≤ kRecordOffsetLimit) (henv : ¬ env.Fails)
    (hsim : Simulates walSize w s) (hallowed : Allowed walSize w call) (hlimits : WithinLimits w) :
    (∃ event w', CallStep env w call event w') ∨ call.Killed env w := by
  obtain ⟨v, isOpen⟩ := s
  cases isOpen with
  | false =>
    obtain ⟨hput, hdelete, hclose⟩ := closed_calls env hsim.isOpen
    cases call with
    | read call =>
      obtain ⟨status, hanswer⟩ := answer_closed hsim.isOpen call
      exact Or.inl ⟨_, _, .read (hanswer ▸ call.settled_err status)⟩
    | openStore options =>
      exact (completes_cases henv (hsim.completes_open hlo hhi hallowed)).imp
        (fun ⟨_, _, hrun⟩ => ⟨_, _, .openStore hrun⟩) id
    | put key value => exact Or.inl ⟨_, _, .put (Prog.attempt_status (hput key value))⟩
    | delete key => exact Or.inl ⟨_, _, .delete (Prog.attempt_status (hdelete key))⟩
    | close => exact Or.inl ⟨_, _, .close (Prog.attempt_ok hclose)⟩
  | true =>
    obtain ⟨hserves, hfatal⟩ := hsim.serves rfl
    obtain ⟨pages, hshows⟩ := hserves.shows
    have hlast := hlimits hsim.isOpen v pages hshows
    cases call with
    | read call =>
      have hanswer := answer_eq hshows hsim.isOpen hfatal call
      exact Or.inl ⟨_, _, .read (hanswer ▸ settled_answerOf v call)⟩
    | openStore options => exact absurd (hsim.isOpen.symm.trans hallowed.1) Bool.noConfusion
    | put key value =>
      exact (completes_cases henv (completes_put hserves hsim.isOpen hfatal hlast key value)).imp
        (fun ⟨_, _, hrun⟩ => ⟨_, _, .put hrun⟩) id
    | delete key =>
      exact (completes_cases henv (completes_delete hserves hsim.isOpen hfatal hlast
        hsim.deletable key)).imp (fun ⟨_, _, hrun⟩ => ⟨_, _, .delete hrun⟩) id
    | close =>
      exact (completes_cases henv (hsim.completes_close hlast)).imp
        (fun ⟨_, _, hrun⟩ => ⟨_, _, .close hrun⟩) id

/-- A run of sessions, by induction on its events. -/
theorem simulates_run (hlo : kWalHeaderSize + kWalRecordHeaderSize ≤ walSize)
    (hhi : walSize ≤ kRecordOffsetLimit) (hd : DiskHolds walSize v d)
    (hdeletable : Deletable walSize v) {events : List Event}
    (h : Run (SessionStep walSize) (World.boot d) events w) :
    ∃ s, Run (DurableMap.Step walSize) ⟨v, false⟩ events s ∧ Simulates walSize w s :=
  h.simulated (simulates_boot hd hdeletable)
    (fun _ _ _ _ hsim hstep => simulates_step hlo hhi hsim hstep)

end Simulation

/-! ### Runs -/

section Runs

variable {w : World} {walSize : ℕ} {v : SortedMap ByteView ByteView} {d : Disk}
  {events : List Event}

/-- A first session, behind its `Open`. -/
theorem first_open : ∃ w, Run (SessionStep 8192) (World.boot .empty)
    [.openStore smallOptions (.ok ())] w ∧ Serves 8192 .empty w ∧ w.isOpen = true ∧
    w.fatal = none ∧ WithinLimits w ∧ w.records.nextFileNo = 2 ∧ w.records.segments.size = 1 ∧
    w.records.segments.get? w.records.activeFileNo =
      some ⟨1, 8192, kWalHeaderSize, false, true, true⟩ := by
  obtain ⟨t, ix, hrun, hserves⟩ := openStore_first
  have hallowed : Allowed 8192 (World.boot .empty) (.openStore smallOptions) := ⟨rfl, rfl⟩
  refine ⟨_, .snoc (.nil _) (.call (fun _ => rfl) hallowed
    (fun h => absurd h Bool.false_ne_true) (.openStore (Prog.attempt_ok hrun))), hserves, rfl, rfl,
    fun _ v pages hshows => ?_, rfl, rfl, ?_⟩
  · obtain ⟨_, hempty⟩ := hserves.shows
    obtain rfl := hshows.unique hempty
    exact ⟨show kFirstWalGeneration + 1 < 2 ^ 64 by decide,
      show kFirstWalSegmentNo + 1 < 2 ^ 33 by decide, by decide⟩
  · show (openedSegments .empty 8192).get? 1 = _
    have hdir : initialDir .empty = SortedMap.empty.insert 1 .empty := rfl
    have hfresh : openedSegment 1 8192 .empty = ⟨1, 8192, kWalHeaderSize, false, true, true⟩ :=
      openedSegment_fresh (by decide)
    rw [openedSegments, hdir, SortedMap.get?_mapValues, SortedMap.get?_insert, if_pos rfl,
      Option.map_some, hfresh]
    rfl

/-- **The store is a durable map**: whatever sessions show, on a directory that holds a map, a map
shows too that loses nothing when a process ends or is broken off; the directory holds that map all
the time, and an open store reads it. -/
theorem sessions_refine_map (hlo : kWalHeaderSize + kWalRecordHeaderSize ≤ walSize)
    (hhi : walSize ≤ kRecordOffsetLimit) (hd : DiskHolds walSize v d)
    (hdeletable : Deletable walSize v) (h : Run (SessionStep walSize) (World.boot d) events w) :
    ∃ s, Run (DurableMap.Step walSize) ⟨v, false⟩ events s ∧ w.isOpen = s.isOpen ∧
      DiskHolds walSize s.map w.disk ∧
      (w.isOpen = true → ∀ call : ReadCall, answer call.run w = answerOf s.map call) := by
  obtain ⟨s, hrun, hsim⟩ := simulates_run hlo hhi hd hdeletable h
  exact ⟨s, hrun, hsim.isOpen, hsim.holds, hsim.answers⟩

/-- A first session that ends without `Close`. -/
theorem sessions_refine_map_first : ∃ w s, Run (SessionStep 8192) (World.boot .empty)
      [.openStore smallOptions (.ok ()), .put [1] [2] (.ok ()), .exit] w ∧
    Run (DurableMap.Step 8192) ⟨.empty, false⟩
      [.openStore smallOptions (.ok ()), .put [1] [2] (.ok ()), .exit] s ∧
    DiskHolds 8192 s.map w.disk := by
  obtain ⟨w, hrun, hserves, hopen, hfatal, hlimits, _⟩ := first_open
  obtain ⟨pages, hshows⟩ := hserves.shows
  have hok : putReply 8192 [1] [2] = .ok () := by decide
  obtain ⟨reply, w', hput, hanswered⟩ := completes_run
    (completes_put hserves hopen hfatal (hlimits hopen _ _ hshows) [1] [2])
  obtain rfl : reply = .ok () := by
    rcases hanswered with ⟨hreply, _⟩ | ⟨hfails, _⟩
    · exact hreply.trans hok
    · exact absurd hfails Env.reliable_not_fails
  have hallowed : Allowed 8192 w (.put [1] [2]) := trivial
  have hstep : SessionStep 8192 w (.put [1] [2] (.ok ())) w' :=
    .call (fun _ => rfl) hallowed hlimits (.put hput)
  have hall := Run.snoc (Run.snoc hrun hstep) .exit
  obtain ⟨s, habstract, _, hholds, _⟩ := sessions_refine_map (by decide) (by decide)
    (diskHolds_empty (by decide)) deletable_empty hall
  exact ⟨_, s, hall, habstract, hholds⟩

/-- **Sessions never get stuck**: in every state they reach, every call returns a value or a status, or
the process is killed in it, unless a file-system call fails.  None reads wildly and none loops for
ever. -/
theorem sessions_never_stuck (hlo : kWalHeaderSize + kWalRecordHeaderSize ≤ walSize)
    (hhi : walSize ≤ kRecordOffsetLimit) (hd : DiskHolds walSize v d)
    (hdeletable : Deletable walSize v) (h : Run (SessionStep walSize) (World.boot d) events w)
    (hlimits : WithinLimits w) {env : Env} (henv : ¬ env.Fails)
    {call : PublicCall} (hallowed : Allowed walSize w call) :
    (∃ event w', CallStep env w call event w') ∨ call.Killed env w := by
  obtain ⟨_, _, hsim⟩ := simulates_run hlo hhi hd hdeletable h
  exact call_progress hlo hhi henv hsim hallowed hlimits

/-- A `Put` in the first session. -/
theorem sessions_never_stuck_first : ∃ w, Run (SessionStep 8192) (World.boot .empty)
      [.openStore smallOptions (.ok ())] w ∧
    ((∃ event w', CallStep .reliable w (.put [1] [2]) event w') ∨
      PublicCall.Killed .reliable w (.put [1] [2])) := by
  obtain ⟨w, hrun, _, _, _, hlimits, _⟩ := first_open
  exact ⟨w, hrun, sessions_never_stuck (by decide) (by decide) (diskHolds_empty (by decide))
    deletable_empty hrun hlimits Env.reliable_not_fails trivial⟩

end Runs

end MinweightStore.Store
