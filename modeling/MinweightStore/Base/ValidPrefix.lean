import Mathlib.Tactic

/-!
# Valid prefixes of a log

A log kept in pieces.  In a piece, records follow one another; a decoder reads the record at an
offset and says where the next one starts, or rejects what it finds.  What such a log is worth after
a crash is its longest valid prefix: the records of each piece up to the first rejected one, and
nothing of the pieces behind it.

* `scanFrom` — the records of one piece and the offset the scan stopped at;
* `scanFrom_congr`, `scanFrom_truncate`, `scanFrom_append` — a scan reads only what lies before its
  limit; a truncated piece scans the same and completely; a record behind the end is added;
* `recover` — the longest valid prefix of a list of pieces, and its laws.
-/

namespace MinweightStore.ValidPrefix

/-! ### One piece -/

section Scan

variable {R : Type}

/-- The records from `offset` on, up to the limit or the first rejected one, and where the scan
stopped. -/
def scanFrom (read : ℕ → Option (R × ℕ)) (limit : ℕ) : ℕ → ℕ → List (ℕ × R) × ℕ
  | 0, offset => ([], offset)
  | fuel + 1, offset =>
    if offset < limit then
      match read offset with
      | some (r, next) => ((offset, r) :: (scanFrom read limit fuel next).1, (scanFrom read limit fuel next).2)
      | none => ([], offset)
    else ([], offset)

/-- A decoder moves on by at least `size`, and never past the limit. -/
def Advances (read : ℕ → Option (R × ℕ)) (limit size : ℕ) : Prop :=
  ∀ offset r next, read offset = some (r, next) → offset + size ≤ next ∧ next ≤ limit

variable {read read' : ℕ → Option (R × ℕ)} {limit size : ℕ} {stop : R → ℕ}

theorem scanFrom_some {fuel offset next : ℕ} {r : R} (hlt : offset < limit)
    (h : read offset = some (r, next)) : scanFrom read limit (fuel + 1) offset =
      ((offset, r) :: (scanFrom read limit fuel next).1, (scanFrom read limit fuel next).2) := by
  rw [scanFrom, if_pos hlt, h]

theorem scanFrom_none {fuel offset : ℕ} (h : read offset = none) :
    scanFrom read limit fuel offset = ([], offset) := by
  cases fuel with
  | zero => rfl
  | succ fuel =>
    rw [scanFrom, h]
    split <;> rfl

theorem scanFrom_end {fuel offset : ℕ} (h : limit ≤ offset) :
    scanFrom read limit fuel offset = ([], offset) := by
  cases fuel with
  | zero => rfl
  | succ fuel => rw [scanFrom, if_neg (Nat.not_lt.mpr h)]

/-- The scan stops behind its start and within the limit. -/
theorem scanFrom_stop (ha : Advances read limit size) : ∀ (fuel offset : ℕ), offset ≤ limit →
    offset ≤ (scanFrom read limit fuel offset).2 ∧ (scanFrom read limit fuel offset).2 ≤ limit
  | 0, offset, h => ⟨le_refl _, h⟩
  | fuel + 1, offset, h => by
    by_cases hlt : offset < limit
    · cases hr : read offset with
      | none => rw [scanFrom_none hr]; exact ⟨le_refl _, h⟩
      | some x =>
        obtain ⟨r, next⟩ := x
        obtain ⟨h1, h2⟩ := ha offset r next hr
        obtain ⟨h3, h4⟩ := scanFrom_stop ha fuel next h2
        rw [scanFrom_some hlt hr]
        exact ⟨by omega, h4⟩
    · rw [scanFrom_end (Nat.not_lt.mp hlt)]
      exact ⟨le_refl _, h⟩

/-- A scan stops behind its last record. -/
theorem scanFrom_stop_eq : ∀ (fuel offset : ℕ), (∀ o r next, read o = some (r, next) → next = stop r) →
    (scanFrom read limit fuel offset).2 =
      (((scanFrom read limit fuel offset).1.getLast?).map fun x => stop x.2).getD offset
  | 0, _, _ => rfl
  | fuel + 1, offset, h => by
    by_cases hlt : offset < limit
    · cases hr : read offset with
      | none => rw [scanFrom_none hr]; rfl
      | some x =>
        obtain ⟨r, next⟩ := x
        have ih := scanFrom_stop_eq fuel next h
        rw [scanFrom_some hlt hr, ih]
        cases hl : (scanFrom read limit fuel next).1.getLast? with
        | none =>
          rw [List.getLast?_eq_none_iff.mp hl]
          exact h offset r next hr
        | some y =>
          rw [List.getLast?_cons, hl]
          rfl
    · rw [scanFrom_end (Nat.not_lt.mp hlt)]
      rfl

/-- A piece holds no more records than fit. -/
theorem scanFrom_length (ha : Advances read limit size) : ∀ (fuel offset : ℕ), offset ≤ limit →
    (scanFrom read limit fuel offset).1.length * size + offset ≤ (scanFrom read limit fuel offset).2
  | 0, offset, _ => by simp [scanFrom]
  | fuel + 1, offset, h => by
    by_cases hlt : offset < limit
    · cases hr : read offset with
      | none => rw [scanFrom_none hr]; simp
      | some x =>
        obtain ⟨r, next⟩ := x
        obtain ⟨h1, h2⟩ := ha offset r next hr
        have ih := scanFrom_length ha fuel next h2
        rw [scanFrom_some hlt hr, List.length_cons, Nat.succ_mul]
        omega
    · rw [scanFrom_end (Nat.not_lt.mp hlt)]
      simp

/-- More fuel than there are offsets changes nothing. -/
theorem scanFrom_fuel (ha : Advances read limit size) (hs : 0 < size) : ∀ (fuel fuel' offset : ℕ),
    limit < offset + fuel → limit < offset + fuel' →
    scanFrom read limit fuel offset = scanFrom read limit fuel' offset
  | 0, fuel', offset, h, _ => by
    rw [scanFrom_end (by omega), scanFrom_end (by omega)]
  | fuel + 1, 0, offset, _, h' => by
    rw [scanFrom_end (by omega), scanFrom_end (by omega)]
  | fuel + 1, fuel' + 1, offset, h, h' => by
    by_cases hlt : offset < limit
    · cases hr : read offset with
      | none => rw [scanFrom_none hr, scanFrom_none hr]
      | some x =>
        obtain ⟨r, next⟩ := x
        obtain ⟨h1, _⟩ := ha offset r next hr
        rw [scanFrom_some hlt hr, scanFrom_some hlt hr, scanFrom_fuel ha hs fuel fuel' next (by omega) (by omega)]
    · rw [scanFrom_end (by omega), scanFrom_end (by omega)]

/-- **A scan reads only what lies before its limit.** -/
theorem scanFrom_congr (h : ∀ offset, offset < limit → read offset = read' offset) :
    ∀ fuel offset, scanFrom read limit fuel offset = scanFrom read' limit fuel offset
  | 0, _ => rfl
  | fuel + 1, offset => by
    by_cases hlt : offset < limit
    · rw [scanFrom, scanFrom, if_pos hlt, if_pos hlt, h offset hlt]
      cases read' offset with
      | none => rfl
      | some x =>
        simp only
        rw [scanFrom_congr h fuel x.2]
    · rw [scanFrom_end (by omega), scanFrom_end (by omega)]

/-- **A piece cut off where its scan stopped** has the same records, and nothing behind them. -/
theorem scanFrom_truncate (ha : Advances read limit size) (hs : 0 < size) :
    ∀ (fuel offset : ℕ), offset ≤ limit →
    (∀ o r next, read o = some (r, next) → next ≤ (scanFrom read limit fuel offset).2 →
      read' o = some (r, next)) →
    scanFrom read' (scanFrom read limit fuel offset).2 fuel offset = scanFrom read limit fuel offset
  | 0, _, _, _ => rfl
  | fuel + 1, offset, h, hread => by
    by_cases hlt : offset < limit
    · cases hr : read offset with
      | none =>
        rw [scanFrom_none hr]
        exact scanFrom_end (le_refl _)
      | some x =>
        obtain ⟨r, next⟩ := x
        obtain ⟨h1, h2⟩ := ha offset r next hr
        have hstop := (scanFrom_stop ha fuel next h2).1
        rw [scanFrom_some hlt hr] at hread ⊢
        rw [scanFrom_some (by simp only; omega) (hread offset r next hr hstop),
          scanFrom_truncate ha hs fuel next h2 hread]
    · have hend : scanFrom read limit (fuel + 1) offset = ([], offset) := scanFrom_end (by omega)
      rw [hend]
      exact scanFrom_end (le_refl _)

/-- **A record written behind a complete piece** is the last one of the new piece. -/
theorem scanFrom_append (ha : Advances read limit size) (hs : 0 < size) {limit' : ℕ} {r : R}
    (hlt : limit < limit') (hnew : read' limit = some (r, limit'))
    (hold : ∀ o x, read o = some x → read' o = some x) :
    ∀ (fuel offset : ℕ), offset ≤ limit → limit < offset + fuel →
    (scanFrom read limit fuel offset).2 = limit →
    scanFrom read' limit' (fuel + 1) offset = ((scanFrom read limit fuel offset).1 ++ [(limit, r)], limit')
  | 0, offset, h, hf, _ => by omega
  | fuel + 1, offset, h, hf, hend => by
    by_cases hne : offset < limit
    · cases hr : read offset with
      | none =>
        rw [scanFrom_none hr] at hend
        simp only at hend
        omega
      | some x =>
        obtain ⟨r', next⟩ := x
        obtain ⟨h1, h2⟩ := ha offset r' next hr
        rw [scanFrom_some hne hr] at hend ⊢
        have ih := scanFrom_append ha hs hlt hnew hold fuel next h2 (by omega) hend
        rw [scanFrom_some (by omega) (hold offset _ hr), ih]
        rfl
    · obtain rfl : offset = limit := by omega
      rw [scanFrom_end (le_refl offset), scanFrom_some hlt hnew, scanFrom_end (le_refl limit')]
      rfl

end Scan

/-! ### A list of pieces -/

/-- A piece of a log: its records, and whether they are all it holds. -/
structure Piece (ι R : Type) where
  id : ι
  records : List R
  complete : Bool

section Pieces

variable {ι R : Type}

/-- The records of a piece, marked with it. -/
def Piece.marked (p : Piece ι R) : List (ι × R) := p.records.map fun r => (p.id, r)

/-- **The longest valid prefix** of a log in pieces. -/
def recover : List (Piece ι R) → List (ι × R)
  | [] => []
  | p :: ps => p.marked ++ if p.complete then recover ps else []

/-- The piece a recovery stops in. -/
def firstIncomplete : List (Piece ι R) → Option (Piece ι R)
  | [] => none
  | p :: ps => if p.complete then firstIncomplete ps else some p

/-- Every piece is complete. -/
def AllComplete (ps : List (Piece ι R)) : Prop := ∀ p ∈ ps, p.complete = true

theorem recover_append : ∀ {ps : List (Piece ι R)}, AllComplete ps → ∀ qs : List (Piece ι R),
    recover (ps ++ qs) = ps.flatMap Piece.marked ++ recover qs
  | [], _, _ => rfl
  | p :: ps, h, qs => by
    rw [List.cons_append, recover, if_pos (h p List.mem_cons_self),
      recover_append (fun q hq => h q (List.mem_cons_of_mem _ hq)), List.flatMap_cons,
      List.append_assoc]

theorem recover_complete {ps : List (Piece ι R)} (h : AllComplete ps) :
    recover ps = ps.flatMap Piece.marked := by
  have := recover_append h []
  rwa [List.append_nil, recover, List.append_nil] at this

/-- A record of the valid prefix belongs to a piece. -/
theorem mem_recover {x : ι × R} : ∀ {ps : List (Piece ι R)}, x ∈ recover ps →
    ∃ p ∈ ps, x ∈ p.marked
  | [], h => absurd h List.not_mem_nil
  | p :: ps, h => by
    rw [recover, List.mem_append] at h
    rcases h with h | h
    · exact ⟨p, List.mem_cons_self, h⟩
    · split at h
      · obtain ⟨q, hq, hx⟩ := mem_recover h
        exact ⟨q, List.mem_cons_of_mem _ hq, hx⟩
      · exact absurd h List.not_mem_nil

theorem firstIncomplete_eq_none : ∀ {ps : List (Piece ι R)},
    firstIncomplete ps = none ↔ AllComplete ps
  | [] => ⟨fun _ _ h => absurd h List.not_mem_nil, fun _ => rfl⟩
  | p :: ps => by
    rw [firstIncomplete, AllComplete, List.forall_mem_cons]
    by_cases hp : p.complete = true
    · rw [if_pos hp, firstIncomplete_eq_none]
      exact ⟨fun h => ⟨hp, h⟩, fun h => h.2⟩
    · rw [if_neg hp]
      exact ⟨fun h => absurd h (by simp), fun h => absurd h.1 hp⟩

theorem firstIncomplete_append : ∀ {ps : List (Piece ι R)}, AllComplete ps →
    ∀ qs : List (Piece ι R), firstIncomplete (ps ++ qs) = firstIncomplete qs
  | [], _, _ => rfl
  | p :: ps, h, qs => by
    rw [List.cons_append, firstIncomplete, if_pos (h p List.mem_cons_self),
      firstIncomplete_append (fun q hq => h q (List.mem_cons_of_mem _ hq))]

/-- A recovery that stops: complete pieces, the one it stops in, and the ones it drops. -/
theorem firstIncomplete_split : ∀ {ps : List (Piece ι R)} {p : Piece ι R},
    firstIncomplete ps = some p → ∃ pre post, ps = pre ++ p :: post ∧ AllComplete pre ∧
      p.complete = false ∧ recover ps = pre.flatMap Piece.marked ++ p.marked
  | [], _, h => absurd h (by simp [firstIncomplete])
  | q :: ps, p, h => by
    rw [firstIncomplete] at h
    by_cases hq : q.complete = true
    · rw [if_pos hq] at h
      obtain ⟨pre, post, rfl, hpre, hp, hrec⟩ := firstIncomplete_split h
      refine ⟨q :: pre, post, rfl, List.forall_mem_cons.mpr ⟨hq, hpre⟩, hp, ?_⟩
      rw [recover, if_pos hq, hrec, List.flatMap_cons, List.append_assoc]
    · rw [if_neg hq] at h
      obtain rfl := Option.some.inj h
      refine ⟨[], ps, rfl, fun _ hx => absurd hx List.not_mem_nil, by simpa using hq, ?_⟩
      rw [recover, if_neg hq, List.append_nil]
      rfl

end Pieces

end MinweightStore.ValidPrefix
