import MinweightStore.Minpatricia.Iter

/-!
# The path of an iterator

`detail::IterPath` keeps its first frames in a fixed array and the others in a vector.  Seen through
`At` and `FramesForInsert` it is a list, whichever side of the border its length is on.

* `at?_eq` — `At` reads the list of the frames;
* `frames_pushNode`, `frames_truncate`, `frames_clear`, `frames_setLeaf` — what the operations do to
  the list;
* `PathOp`, `LegalRun` — sequences of operations, on a path and on a list;
* `iterPath_is_stack` — **the path is a stack at every depth**.
-/

namespace MinweightStore.Minpatricia

namespace IterPath

/-! ### One operation -/

theorem length_frames (path : IterPath) : path.framesForInsert.length = path.len := by
  have h := path.overflow_length
  rw [framesForInsert, List.length_append, List.length_take, Vector.length_toList, h]
  omega

theorem at?_eq (path : IterPath) {i : ℕ} (hi : i < path.len) :
    path.at? i = path.framesForInsert[i]? := by
  have h := path.overflow_length
  rw [at?, framesForInsert]
  by_cases hs : i < kIterStackDepth
  · rw [dif_pos hs, List.getElem?_append_left
      (by rw [List.length_take, Vector.length_toList]; omega),
      List.getElem?_take_of_lt (by omega), Vector.getElem?_toList, Vector.getElem?_eq_getElem hs]
    rfl
  · rw [dif_neg hs, List.getElem?_append_right
      (by rw [List.length_take, Vector.length_toList]; omega), List.length_take,
      Vector.length_toList]
    congr 1
    omega

theorem frames_reset : reset.framesForInsert = [] := rfl

theorem frames_pushNode (path : IterPath) (id : UInt64) (leaf : ℕ) :
    (path.pushNode id leaf).framesForInsert = path.framesForInsert ++ [⟨id, leaf⟩] := by
  have h := path.overflow_length
  rw [pushNode]
  split
  · rename_i hlt
    have hnil : path.overflow = [] := List.length_eq_zero_iff.mp (by omega)
    simp only [framesForInsert, hnil, List.append_nil]
    rw [Nat.min_eq_left (by omega), Nat.min_eq_left (by omega), Vector.toList_set,
      List.take_succ_eq_append_getElem (by rw [List.length_set, Vector.length_toList]; exact hlt),
      List.getElem_set_self, List.take_set_of_le (le_refl _)]
  · rename_i hge
    simp only [framesForInsert]
    rw [Nat.min_eq_right (by omega), Nat.min_eq_right (by omega), List.append_assoc]

theorem frames_truncate (path : IterPath) {n : ℕ} (hn : n ≤ path.len) :
    (path.truncate n).framesForInsert = path.framesForInsert.take n := by
  have h := path.overflow_length
  rw [truncate]
  split
  · rename_i hle
    simp only [framesForInsert, List.append_nil]
    rw [List.take_append_of_le_length
      (by rw [List.length_take, Vector.length_toList]; omega), List.take_take]
    congr 1
    omega
  · rename_i hgt
    have hlen : (path.stack.toList.take (min path.len kIterStackDepth)).length
        = kIterStackDepth := by
      rw [List.length_take, Vector.length_toList]
      omega
    simp only [framesForInsert, resize]
    rw [show n - kIterStackDepth - path.overflow.length = 0 by omega, List.replicate_zero,
      List.append_nil, List.take_append, hlen, List.take_of_length_le (i := n) (by omega),
      Nat.min_eq_right (show kIterStackDepth ≤ n by omega),
      Nat.min_eq_right (show kIterStackDepth ≤ path.len by omega)]

/-- `Reset` of a path that has been used: the array keeps its frames. -/
def clear (path : IterPath) : IterPath := ⟨path.stack, [], 0, reset.overflow_length⟩

theorem frames_clear (path : IterPath) : path.clear.framesForInsert = [] := rfl

/-- The array part is full when there is an overflow. -/
theorem length_stackPart (path : IterPath) {i : ℕ} (hi : i < path.len) (h : ¬ i < kIterStackDepth) :
    (path.stack.toList.take (min path.len kIterStackDepth)).length = kIterStackDepth := by
  rw [List.length_take, Vector.length_toList]
  omega

/-- Writing the leaf of a frame. -/
theorem frames_setLeaf (path : IterPath) {i : ℕ} (hi : i < path.len) (leaf : ℕ) :
    (path.setLeaf i leaf).framesForInsert =
      path.framesForInsert.modify i fun frame => ⟨frame.id, leaf⟩ := by
  have hread := path.at?_eq hi
  have hover := path.overflow_length
  rw [List.modify_eq_set_getElem?, ← hread, at?, setLeaf]
  split
  · simp only [framesForInsert, Option.map_eq_map, Option.map_some, Option.getD_some]
    rw [Vector.toList_set, List.take_set, List.set_append_left _ _
      (by rw [List.length_take, Vector.length_toList]; omega)]
  · rename_i hge
    have hstack := path.length_stackPart hi hge
    have hlt : i - kIterStackDepth < path.overflow.length := by omega
    simp only [framesForInsert, List.getElem?_eq_getElem hlt, Option.map_eq_map, Option.map_some,
      Option.getD_some]
    rw [List.set_append_right _ _ (by omega), hstack, List.modify_eq_set_getElem?,
      List.getElem?_eq_getElem hlt]
    rfl

/-- Writing the leaf of the last frame. -/
theorem frames_setLeaf_last {path : IterPath} {l : List PutFrame} {id : UInt64} {leaf : ℕ}
    (hf : path.framesForInsert = l ++ [⟨id, leaf⟩]) (leaf' : ℕ) :
    (path.setLeaf (path.len - 1) leaf').framesForInsert = l ++ [⟨id, leaf'⟩] := by
  have hlen := path.length_frames
  rw [hf, List.length_append, List.length_singleton] at hlen
  rw [path.frames_setLeaf (by omega), hf, show path.len - 1 = l.length by omega,
    List.modify_eq_set_getElem?, List.getElem?_append_right (le_refl _), Nat.sub_self]
  show (l ++ [_]).set l.length _ = _
  rw [List.set_append_right _ _ (le_refl _), Nat.sub_self]
  rfl

end IterPath

/-! ### Sequences of operations -/

/-- **An operation on a path.** -/
inductive PathOp where
  | push (id : UInt64) (leaf : ℕ)
  | truncate (newLen : ℕ)
  | reset
  | setLeaf (index leaf : ℕ)
  deriving DecidableEq, Repr

namespace PathOp

/-- The operation of the code. -/
def onPath (path : IterPath) : PathOp → IterPath
  | push id leaf => path.pushNode id leaf
  | truncate newLen => path.truncate newLen
  | reset => path.clear
  | setLeaf index leaf => path.setLeaf index leaf

/-- The operation on a plain list. -/
def onList (l : List PutFrame) : PathOp → List PutFrame
  | push id leaf => l ++ [⟨id, leaf⟩]
  | truncate newLen => l.take newLen
  | reset => []
  | setLeaf index leaf => l.modify index fun frame => ⟨frame.id, leaf⟩

/-- **What a caller keeps to**: no length beyond the current one, no index behind the last frame. -/
def Legal (l : List PutFrame) : PathOp → Prop
  | push _ _ => True
  | truncate newLen => newLen ≤ l.length
  | reset => True
  | setLeaf index _ => index < l.length

/-- One operation. -/
theorem frames_onPath {path : IterPath} {op : PathOp} (h : op.Legal path.framesForInsert) :
    (op.onPath path).framesForInsert = op.onList path.framesForInsert := by
  have hlen := path.length_frames
  cases op with
  | push id leaf => exact path.frames_pushNode id leaf
  | truncate newLen =>
    apply path.frames_truncate
    rw [← hlen]
    exact h
  | reset => exact path.frames_clear
  | setLeaf index leaf =>
    apply path.frames_setLeaf
    rw [← hlen]
    exact h

end PathOp

/-- **A sequence of operations that keeps to the rules.** -/
def LegalRun : List PathOp → List PutFrame → Prop
  | [], _ => True
  | op :: ops, l => op.Legal l ∧ LegalRun ops (op.onList l)

instance (op : PathOp) (l : List PutFrame) : Decidable (op.Legal l) :=
  match op with
  | .push _ _ => isTrue trivial
  | .truncate newLen => inferInstanceAs (Decidable (newLen ≤ l.length))
  | .reset => isTrue trivial
  | .setLeaf index _ => inferInstanceAs (Decidable (index < l.length))

instance decidableLegalRun : ∀ (ops : List PathOp) (l : List PutFrame), Decidable (LegalRun ops l)
  | [], _ => isTrue trivial
  | op :: ops, l =>
    have : Decidable (LegalRun ops (op.onList l)) := decidableLegalRun ops (op.onList l)
    inferInstanceAs (Decidable (op.Legal l ∧ LegalRun ops (op.onList l)))

/-- A sequence of operations, by induction on it. -/
theorem frames_run (ops : List PathOp) (path : IterPath) (h : LegalRun ops path.framesForInsert) :
    (ops.foldl PathOp.onPath path).framesForInsert = ops.foldl PathOp.onList path.framesForInsert := by
  induction ops generalizing path with
  | nil => rfl
  | cons op ops ih =>
    obtain ⟨hop, hops⟩ := h
    have hone := PathOp.frames_onPath hop
    rw [List.foldl_cons, List.foldl_cons, ih _ (by rw [hone]; exact hops), hone]

/-- **The path is a stack at every depth**: after any legal sequence of operations from an empty path,
its length, the frames seen through `At` and those of `FramesForInsert` are those of the list. -/
theorem iterPath_is_stack {ops : List PathOp} (h : LegalRun ops []) :
    (ops.foldl PathOp.onPath .reset).len = (ops.foldl PathOp.onList []).length ∧
      (∀ i < (ops.foldl PathOp.onPath .reset).len,
        (ops.foldl PathOp.onPath .reset).at? i = (ops.foldl PathOp.onList [])[i]?) ∧
      (ops.foldl PathOp.onPath .reset).framesForInsert = ops.foldl PathOp.onList [] := by
  have hframes := frames_run ops .reset h
  rw [IterPath.frames_reset] at hframes
  refine ⟨?_, fun i hi => ?_, hframes⟩
  · rw [← hframes, IterPath.length_frames]
  · rw [IterPath.at?_eq _ hi, hframes]

/-- Eighteen frames, back to the border, and one more. -/
def acrossTheBorder : List PathOp :=
  (List.range 18).map (fun leaf => .push 1 leaf) ++ [.setLeaf 17 5, .truncate 16, .push 2 9]

theorem iterPath_is_stack_border :
    (acrossTheBorder.foldl PathOp.onPath .reset).at? 16 = some ⟨2, 9⟩ := by
  have hlegal : LegalRun acrossTheBorder [] := by decide
  have h := iterPath_is_stack hlegal
  rw [h.2.1 16 (by rw [h.1]; decide)]
  decide

end MinweightStore.Minpatricia
