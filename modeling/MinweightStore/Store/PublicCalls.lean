import MinweightStore.Store.Impl
import Mathlib.Logic.Relation

/-!
# Public calls

The calls on `Store`, and the runs of a process that makes them one after the other.  What becomes
of the file-system calls is decided anew for every public call.

* `ReadCall`, `ReadCall.Settled`, `onlyReads_run` — the calls that only read, and the replies that are
  values or statuses;
* `PublicCall`, `Returned` — any call, and the state in which it returns;
* `Step`, `Reach` — the runs whose steps all meet a condition, and the states they reach;
* `Reach.invariant` — what every step keeps holds in all of them.
-/

namespace MinweightStore.Store

open Minpatricia (ByteView)

/-! ### Reads -/

/-- A public call that reads. -/
inductive ReadCall : Type 1 where
  | len
  | get (key : ByteView)
  | scan {σ : Type} (fn : VisitFunc σ) (s : σ)
  | scanRange {σ : Type} (ge lt : ByteView) (fn : VisitFunc σ) (s : σ)
  | reverseScan {σ : Type} (fn : VisitFunc σ) (s : σ)
  | reverseScanRange {σ : Type} (le gt : ByteView) (fn : VisitFunc σ) (s : σ)
  | seekGE (key : ByteView)
  | seekLE (key : ByteView)

namespace ReadCall

/-- What a read returns. -/
def Reply : ReadCall → Type
  | len => UInt64
  | get _ => GetResult
  | @scan σ _ _ => Result Unit × σ
  | @scanRange σ _ _ _ _ => Result Unit × σ
  | @reverseScan σ _ _ => Result Unit × σ
  | @reverseScanRange σ _ _ _ _ => Result Unit × σ
  | seekGE _ => SeekResult
  | seekLE _ => SeekResult

/-- A read as a program. -/
def run : (call : ReadCall) → StoreM call.Reply
  | len => Store.len
  | get key => get' key
  | scan fn s => Store.scan fn s
  | scanRange ge lt fn s => Store.scanRange ge lt fn s
  | reverseScan fn s => Store.reverseScan fn s
  | reverseScanRange le gt fn s => Store.reverseScanRange le gt fn s
  | seekGE key => Store.seekGE key
  | seekLE key => Store.seekLE key

/-- **A reply that is settled** is a value or a status, and so is what a scan says of the index. -/
def Settled : (call : ReadCall) → Result call.Reply → Prop
  | len, reply => Outcome.Settled reply
  | get _, reply => Outcome.Settled reply
  | scan _ _, reply => Outcome.Settled reply ∧ ∀ r s, reply = .ok (r, s) → Outcome.Settled r
  | scanRange _ _ _ _, reply => Outcome.Settled reply ∧ ∀ r s, reply = .ok (r, s) → Outcome.Settled r
  | reverseScan _ _, reply => Outcome.Settled reply ∧ ∀ r s, reply = .ok (r, s) → Outcome.Settled r
  | reverseScanRange _ _ _ _, reply =>
    Outcome.Settled reply ∧ ∀ r s, reply = .ok (r, s) → Outcome.Settled r
  | seekGE _, reply => Outcome.Settled reply
  | seekLE _, reply => Outcome.Settled reply

theorem settled_err (call : ReadCall) (status : Status) : call.Settled (err status) := by
  cases call with
  | len => trivial
  | get key => trivial
  | scan fn s => exact ⟨trivial, fun r s h => absurd h (by simp [err])⟩
  | scanRange ge lt fn s => exact ⟨trivial, fun r s h => absurd h (by simp [err])⟩
  | reverseScan fn s => exact ⟨trivial, fun r s h => absurd h (by simp [err])⟩
  | reverseScanRange le gt fn s => exact ⟨trivial, fun r s h => absurd h (by simp [err])⟩
  | seekGE key => trivial
  | seekLE key => trivial

end ReadCall

/-- What a call answers, without the state it leaves. -/
def answer {α : Type} (x : StoreM α) (w : World) : Result α :=
  match x w with
  | .ok a _ => .ok a
  | .error fault _ => .error fault

/-- **The reads of two states** answer the same. -/
def SameAnswers (w w' : World) : Prop := ∀ call : ReadCall, answer call.run w = answer call.run w'

section Reads

variable {α β : Type} {w : World}

/-- A program that only reads. -/
def OnlyReads (x : StoreM α) : Prop := ∀ w, Prog.final x w = w

theorem OnlyReads.bind {x : StoreM α} {f : α → StoreM β} (hx : OnlyReads x)
    (hf : ∀ a, OnlyReads (f a)) : OnlyReads (x >>= f) := by
  intro w
  have hw := hx w
  cases hrun : x w with
  | ok a w' =>
    rw [Prog.final_ok hrun] at hw
    subst hw
    rw [Prog.final_bind_ok hrun, hf a]
  | error fault w' =>
    rw [Prog.final_error hrun] at hw
    rw [Prog.final_bind_error hrun, hw]

theorem onlyReads_pure (a : α) : OnlyReads (pure a) := fun _ => rfl

theorem onlyReads_throw (fault : Fault Status) : OnlyReads (throw fault : StoreM α) := fun _ => rfl

theorem onlyReads_get : OnlyReads get := fun _ => rfl

theorem onlyReads_ofOutcome (o : Result α) : OnlyReads (Prog.ofOutcome o) := by
  intro w
  cases o <;> rfl

theorem onlyReads_checkOpen : OnlyReads checkOpen := by
  intro w
  rw [checkOpen, Prog.final_bind_ok (Prog.get_run w)]
  split
  · rfl
  · split <;> rfl

theorem onlyReads_seekResult (result : Result Unit × SeekResult) : OnlyReads (seekResult result) := by
  obtain ⟨status, found⟩ := result
  intro w
  cases status <;> rfl

/-- **A read leaves the state as it is.** -/
theorem onlyReads_run (call : ReadCall) : OnlyReads call.run := by
  have hopen : ∀ {α : Type} (f : World → StoreM α), (∀ w, OnlyReads (f w)) →
      OnlyReads (checkOpen >>= fun _ => get >>= f) := fun f hf =>
    onlyReads_checkOpen.bind fun _ => onlyReads_get.bind hf
  cases call with
  | len => exact hopen _ fun w => onlyReads_pure _
  | get key =>
    refine hopen _ fun w => (onlyReads_ofOutcome _).bind fun pos => ?_
    split
    · exact onlyReads_pure _
    · exact (onlyReads_ofOutcome _).bind fun _ => (onlyReads_ofOutcome _).bind fun _ => onlyReads_pure _
  | scan fn s => exact hopen _ fun w => onlyReads_pure _
  | scanRange ge lt fn s =>
    show OnlyReads (Store.scanRange ge lt fn s)
    rw [Store.scanRange]
    split
    · exact onlyReads_throw _
    · exact hopen _ fun w => onlyReads_pure _
  | reverseScan fn s => exact hopen _ fun w => onlyReads_pure _
  | reverseScanRange le gt fn s =>
    show OnlyReads (Store.reverseScanRange le gt fn s)
    rw [Store.reverseScanRange]
    split
    · exact onlyReads_throw _
    · exact hopen _ fun w => onlyReads_pure _
  | seekGE key => exact hopen _ fun w => onlyReads_seekResult _
  | seekLE key => exact hopen _ fun w => onlyReads_seekResult _

end Reads

/-! ### All calls -/

/-- **A public call.**  A store that is opened replaces one that is closed. -/
inductive PublicCall : Type 1 where
  | read (call : ReadCall)
  | openStore (options : Options)
  | put (key value : ByteView)
  | delete (key : ByteView)
  | close

/-- **A call that has returned**, with a value or a status. -/
def Returned {α : Type} (x : StoreM α) (w w' : World) : Prop :=
  (∃ a, x w = .ok a w') ∨ ∃ status, x w = .error (.status status) w'

/-- The states in which a public call returns.  An `Open` that fails leaves no store. -/
def PublicCall.Returns (env : Env) (w w' : World) : PublicCall → Prop
  | read call => Returned call.run w w'
  | openStore options => w.isOpen = false ∧
      ((∃ u, Store.openStore env options w = .ok u w') ∨ ∃ status w₁,
        Store.openStore env options w = .error (.status status) w₁ ∧
          w' = { w₁ with isOpen := false })
  | put key value => Returned (Store.put env key value) w w'
  | delete key => Returned (Store.delete env key) w w'
  | close => Returned (Store.close env) w w'

section Returned

variable {α : Type} {x : StoreM α} {I : World → Prop} {w w' : World}

theorem Returned.of_leaves (h : Returned x w w') (hx : Prog.leaves x I w) : I w' := by
  rcases h with ⟨a, hrun⟩ | ⟨status, hrun⟩
  · exact Prog.wp_run_ok hx hrun
  · exact Prog.wp_run_error hx hrun

theorem Returned.of_onlyReads (h : Returned x w w') (hx : OnlyReads x) : w' = w := by
  have hw := hx w
  rcases h with ⟨a, hrun⟩ | ⟨status, hrun⟩
  · rw [← hw, Prog.final_ok hrun]
  · rw [← hw, Prog.final_error hrun]

end Returned

/-! ### Runs -/

/-- A condition on a call and the state before it. -/
abbrev CallCondition := Env → PublicCall → World → Prop

/-- **One call of a process** that is not killed, made when the condition holds. -/
def Step (cond : CallCondition) (w w' : World) : Prop :=
  ∃ env call, env.Survives ∧ cond env call w ∧ call.Returns env w w'

/-- **The states that runs reach**, from a new process on any directory. -/
def Reach (cond : CallCondition) (w : World) : Prop :=
  ∃ disk, Relation.ReflTransGen (Step cond) (World.boot disk) w

/-- **An invariant of all runs**, by induction on the run. -/
theorem Reach.invariant {cond : CallCondition} {I : World → Prop} {w : World} (h : Reach cond w)
    (hboot : ∀ disk, I (World.boot disk)) (hstep : ∀ w w', I w → Step cond w w' → I w') : I w := by
  obtain ⟨disk, hrun⟩ := h
  induction hrun with
  | refl => exact hboot disk
  | tail _ hlast ih => exact hstep _ _ ih hlast

end MinweightStore.Store
