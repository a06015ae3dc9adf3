import MinweightStore.Base.PagedTree

/-!
# Operations on paged Patricia trees

* `Valid.fill_congr` / `Valid.fill_insert` — replacing one subtree of a page keeps the tree
  valid when the keys stay the same, or grow by one key that follows the same turns;
* `slotCtx` — the item of a page that a key descends to, `HasAbove` — a branch on that way whose
  position is above a given one;
* `insertPage`, `insertSlot` — a new item goes beside the highest such branch, or beside the
  item itself; `Valid.insertPage` and the item list it produces;
* `Ctx.remove` — taking one item out, its neighbour subtree moving up;
* `Adjacent` — the branch positions of a page are the first differences of neighbouring items.
-/

namespace MinweightStore

open BitKey

namespace PagedTree

variable {K V I : Type} [LinearOrder K] [BitKey K]

/-! ### Replacing a subtree -/

theorem Valid.of_fill {c : Ctx K V I} {s : PagedTree K V I} (h : (c.fill s).Valid) :
    s.Valid := by
  induction c with
  | hole => exact h
  | left d c r ih => exact ih h.2.1
  | right d l c ih => exact ih h.2.2

omit [LinearOrder K] [BitKey K] in
theorem mem_entries_fill {c : Ctx K V I} {s : PagedTree K V I} {e : K × V} :
    e ∈ (c.fill s).entries ↔ e ∈ c.leftEntries ∨ e ∈ s.entries ∨ e ∈ c.rightEntries := by
  rw [Ctx.entries_fill, List.mem_append, List.mem_append, or_assoc]

/-- Replacing a subtree by one with no new keys keeps a tree valid. -/
theorem Valid.fill_congr {c : Ctx K V I} {s u : PagedTree K V I} (h : (c.fill s).Valid)
    (hu : u.Valid) (hkeys : ∀ e ∈ u.entries, ∃ e' ∈ s.entries, e'.1 = e.1) :
    (c.fill u).Valid := by
  have hsub : ∀ c' : Ctx K V I, ∀ e ∈ (c'.fill u).entries,
      ∃ e' ∈ (c'.fill s).entries, e'.1 = e.1 := by
    intro c' e he
    rcases mem_entries_fill.mp he with h1 | h1 | h1
    · exact ⟨e, mem_entries_fill.mpr (Or.inl h1), rfl⟩
    · obtain ⟨e', he', hk⟩ := hkeys e h1
      exact ⟨e', mem_entries_fill.mpr (Or.inr (Or.inl he')), hk⟩
    · exact ⟨e, mem_entries_fill.mpr (Or.inr (Or.inr h1)), rfl⟩
  induction c with
  | hole => exact hu
  | left d c r ih =>
    refine ⟨fun a ha b hb => ?_, ih h.2.1, h.2.2⟩
    obtain ⟨a', ha', hk⟩ := hsub c a ha
    exact hk ▸ h.1 a' ha' b hb
  | right d l c ih =>
    refine ⟨fun a ha b hb => ?_, h.2.1, ih h.2.2⟩
    obtain ⟨b', hb', hk⟩ := hsub c b hb
    exact hk ▸ h.1 a ha b' hb'

end PagedTree

namespace Ctx

variable {K V I : Type} [LinearOrder K] [BitKey K]

/-- Every turn on the way to the hole is the turn `q` takes. -/
def Along (q : K) : Ctx K V I → Prop
  | hole => True
  | left d c _ => bit q d = false ∧ Along q c
  | right d _ c => bit q d = true ∧ Along q c

end Ctx

namespace PagedTree

variable {K V I : Type} [LinearOrder K] [BitKey K]

/-- The key `q` sits next to `t`: it agrees below `δ` with some key of `t`. -/
def NearKey (q : K) (δ : ℕ) (t : PagedTree K V I) : Prop :=
  ∃ e ∈ t.entries, AgreeBelow δ q e.1

/-- **Adding a key below a hole.**  If `q` follows the turns to the hole, all above `δ`, and
agrees below `δ` with a key there, a subtree extended by `q` fits into the hole. -/
theorem Valid.fill_insert {c : Ctx K V I} {s s' : PagedTree K V I} {q : K} {δ : ℕ}
    (h : (c.fill s).Valid) (hs' : s'.Valid) (halong : c.Along q)
    (hturns : ∀ d ∈ c.turns, d < δ) (hnear : NearKey q δ s)
    (hkeys : ∀ e ∈ s'.entries, e.1 = q ∨ e ∈ s.entries) : (c.fill s').Valid := by
  have hsub : ∀ c' : Ctx K V I, ∀ e ∈ (c'.fill s').entries,
      e.1 = q ∨ e ∈ (c'.fill s).entries := by
    intro c' e he
    rcases mem_entries_fill.mp he with h1 | h1 | h1
    · exact Or.inr (mem_entries_fill.mpr (Or.inl h1))
    · exact (hkeys e h1).imp_right (fun h2 => mem_entries_fill.mpr (Or.inr (Or.inl h2)))
    · exact Or.inr (mem_entries_fill.mpr (Or.inr (Or.inr h1)))
  obtain ⟨k, hk, hagree⟩ := hnear
  have hkc : ∀ c' : Ctx K V I, k ∈ (c'.fill s).entries :=
    fun c' => mem_entries_fill.mpr (Or.inr (Or.inl hk))
  induction c with
  | hole => exact hs'
  | left d c r ih =>
    have hd : d < δ := hturns d List.mem_cons_self
    refine ⟨fun a ha b hb => ?_,
      ih h.2.1 halong.2 (fun e he => hturns e (List.mem_cons_of_mem d he)), h.2.2⟩
    rcases hsub c a ha with hq | ha'
    · rw [hq]
      exact (h.1 k (hkc c) b hb).congr_left hagree hd
    · exact h.1 a ha' b hb
  | right d l c ih =>
    have hd : d < δ := hturns d List.mem_cons_self
    refine ⟨fun a ha b hb => ?_, h.2.1,
      ih h.2.2 halong.2 (fun e he => hturns e (List.mem_cons_of_mem d he))⟩
    rcases hsub c b hb with hq | hb'
    · rw [hq]
      exact (h.1 a ha k (hkc c)).congr_right hagree hd
    · exact h.1 a ha b hb'

/-! ### Descent inside one page -/

/-- The item of the page that `q` descends to, with the page around it. -/
def slotCtx (q : K) : PagedTree K V I → Ctx K V I × PagedTree K V I
  | leaf k v => (.hole, leaf k v)
  | page i t => (.hole, page i t)
  | node d l r =>
    if bit q d then (.right d l (slotCtx q r).1, (slotCtx q r).2)
    else (.left d (slotCtx q l).1 r, (slotCtx q l).2)

theorem fill_slotCtx (q : K) (t : PagedTree K V I) :
    (t.slotCtx q).1.fill (t.slotCtx q).2 = t := by
  induction t with
  | leaf k v => rfl
  | page i t ih => rfl
  | node d l r ihl ihr =>
    simp only [slotCtx]
    split
    · simp only [Ctx.fill, ihr]
    · simp only [Ctx.fill, ihl]

theorem along_slotCtx (q : K) (t : PagedTree K V I) : (t.slotCtx q).1.Along q := by
  induction t with
  | leaf k v => trivial
  | page i t ih => trivial
  | node d l r ihl ihr =>
    simp only [slotCtx]
    split
    · rename_i hb
      exact ⟨hb, ihr⟩
    · rename_i hb
      exact ⟨by simpa using hb, ihl⟩

theorem isItem_slotCtx (q : K) (t : PagedTree K V I) : (t.slotCtx q).2.IsItem := by
  induction t with
  | leaf k v => trivial
  | page i t ih => trivial
  | node d l r ihl ihr =>
    simp only [slotCtx]
    split
    · exact ihr
    · exact ihl

/-- Some branch on the way of `q` through the page has a position larger than `δ`. -/
def HasAbove (q : K) (δ : ℕ) : PagedTree K V I → Prop
  | leaf _ _ => False
  | page _ _ => False
  | node d l r => δ < d ∨ if bit q d then HasAbove q δ r else HasAbove q δ l

instance decidableHasAbove (q : K) (δ : ℕ) : ∀ t : PagedTree K V I, Decidable (t.HasAbove q δ)
  | leaf _ _ => instDecidableFalse
  | page _ _ => instDecidableFalse
  | node d l r =>
    have := decidableHasAbove q δ l
    have := decidableHasAbove q δ r
    inferInstanceAs (Decidable (δ < d ∨ if bit q d then HasAbove q δ r else HasAbove q δ l))

/-- Without a branch above `δ`, all turns to the item are at most `δ`. -/
theorem turns_le_of_not_hasAbove {q : K} {δ : ℕ} {t : PagedTree K V I}
    (h : ¬ t.HasAbove q δ) : ∀ d ∈ (t.slotCtx q).1.turns, d ≤ δ := by
  induction t with
  | leaf k v => intro d hd; exact absurd hd List.not_mem_nil
  | page i t ih => intro d hd; exact absurd hd List.not_mem_nil
  | node d l r ihl ihr =>
    simp only [HasAbove, not_or, not_lt] at h
    obtain ⟨hd, hrest⟩ := h
    simp only [slotCtx]
    split
    · rename_i hb
      rw [if_pos hb] at hrest
      intro e he
      rcases List.mem_cons.mp he with rfl | he
      · exact hd
      · exact ihr hrest e he
    · rename_i hb
      rw [if_neg hb] at hrest
      intro e he
      rcases List.mem_cons.mp he with rfl | he
      · exact hd
      · exact ihl hrest e he

/-! ### Adding an item to a page -/

/-- A new item beside a subtree, on the side the bit of `q` at `δ` says. -/
def join (q : K) (δ : ℕ) (new s : PagedTree K V I) : PagedTree K V I :=
  if bit q δ then node δ s new else node δ new s

/-- The page with one more item, beside the first branch above `δ` on the way of `q`. -/
def insertPage (q : K) (δ : ℕ) (new : PagedTree K V I) : PagedTree K V I → PagedTree K V I
  | leaf k v => join q δ new (leaf k v)
  | page i t => join q δ new (page i t)
  | node d l r =>
    if δ < d then join q δ new (node d l r)
    else if bit q d then node d l (insertPage q δ new r)
    else node d (insertPage q δ new l) r

/-- The place of the new item among the items of the page. -/
def insertSlot (q : K) (δ : ℕ) : PagedTree K V I → ℕ
  | leaf _ _ => if bit q δ then 1 else 0
  | page _ _ => if bit q δ then 1 else 0
  | node d l r =>
    if δ < d then (if bit q δ then (node d l r).width else 0)
    else if bit q d then l.width + insertSlot q δ r
    else insertSlot q δ l

theorem insertSlot_le (q : K) (δ : ℕ) (t : PagedTree K V I) : t.insertSlot q δ ≤ t.width := by
  induction t with
  | leaf k v => simp only [insertSlot, width]; split <;> omega
  | page i t ih => simp only [insertSlot, width]; split <;> omega
  | node d l r ihl ihr =>
    simp only [insertSlot]
    split
    · split <;> omega
    · split <;> simp only [width] <;> omega

/-- Without a branch above `δ` the new item goes beside the item `q` ends at. -/
theorem insertSlot_of_not_hasAbove {q : K} {δ : ℕ} {t : PagedTree K V I}
    (h : ¬ t.HasAbove q δ) :
    t.insertSlot q δ = (t.slotCtx q).1.slot + if bit q δ then 1 else 0 := by
  induction t with
  | leaf k v => simp [insertSlot, slotCtx, Ctx.slot, Ctx.leftItems]
  | page i t ih => simp [insertSlot, slotCtx, Ctx.slot, Ctx.leftItems]
  | node d l r ihl ihr =>
    simp only [HasAbove, not_or] at h
    obtain ⟨hd, hrest⟩ := h
    simp only [insertSlot, slotCtx]
    rw [if_neg hd]
    by_cases hb : bit q d
    · rw [if_pos hb] at hrest ⊢
      rw [if_pos hb, ihr hrest]
      simp only [Ctx.slot, Ctx.leftItems, List.length_append, length_items, Nat.add_assoc]
    · rw [if_neg hb] at hrest ⊢
      rw [if_neg hb, ihl hrest]
      rfl

theorem mem_entries_join {q : K} {δ : ℕ} {new s : PagedTree K V I} {e : K × V} :
    e ∈ (join q δ new s).entries ↔ e ∈ new.entries ∨ e ∈ s.entries := by
  unfold join
  split <;> simp [entries, or_comm]

theorem mem_entries_insertPage {q : K} {δ : ℕ} {new t : PagedTree K V I} {e : K × V} :
    e ∈ (insertPage q δ new t).entries ↔ e ∈ new.entries ∨ e ∈ t.entries := by
  induction t with
  | leaf k v => exact mem_entries_join
  | page i t ih => exact mem_entries_join
  | node d l r ihl ihr =>
    simp only [insertPage]
    split
    · exact mem_entries_join
    · split
      · simp only [entries, List.mem_append, ihr]; tauto
      · simp only [entries, List.mem_append, ihl]; tauto

theorem items_join {q : K} {δ : ℕ} {new s : PagedTree K V I} (hnew : new.IsItem) :
    (join q δ new s).items = if bit q δ then s.items ++ [new] else new :: s.items := by
  unfold join
  split <;> simp [items, items_of_isItem hnew]

/-- The items of the larger page: the new one at its slot. -/
theorem items_insertPage {q : K} {δ : ℕ} {new : PagedTree K V I} (hnew : new.IsItem)
    (t : PagedTree K V I) :
    (insertPage q δ new t).items
      = t.items.take (t.insertSlot q δ) ++ new :: t.items.drop (t.insertSlot q δ) := by
  have hjoin : ∀ s : PagedTree K V I, (join q δ new s).items
      = s.items.take (if bit q δ then s.width else 0)
        ++ new :: s.items.drop (if bit q δ then s.width else 0) := by
    intro s
    rw [items_join hnew]
    split
    · rw [← length_items, List.take_length, List.drop_length]
    · rfl
  induction t with
  | leaf k v => exact hjoin (leaf k v)
  | page i t ih => exact hjoin (page i t)
  | node d l r ihl ihr =>
    simp only [insertPage, insertSlot]
    split
    · exact hjoin (node d l r)
    · split
      · rw [show (node d l (insertPage q δ new r)).items
            = l.items ++ (insertPage q δ new r).items from rfl, ihr]
        have hlen := length_items l
        rw [show (node d l r).items = l.items ++ r.items from rfl, List.take_append,
          List.drop_append, hlen, Nat.add_sub_cancel_left]
        have ht : l.items.take (l.width + insertSlot q δ r) = l.items :=
          List.take_of_length_le (by omega)
        have hd : l.items.drop (l.width + insertSlot q δ r) = [] :=
          List.drop_of_length_le (by omega)
        rw [ht, hd, List.append_assoc, List.nil_append]
      · rw [show (node d (insertPage q δ new l) r).items
            = (insertPage q δ new l).items ++ r.items from rfl, ihl]
        have hle := insertSlot_le q δ l
        have hlen := length_items l
        rw [show (node d l r).items = l.items ++ r.items from rfl, List.take_append,
          List.drop_append, show l.insertSlot q δ - l.items.length = 0 by omega]
        simp

theorem width_insertPage {q : K} {δ : ℕ} {new : PagedTree K V I} (hnew : new.IsItem)
    (t : PagedTree K V I) : (insertPage q δ new t).width = t.width + 1 := by
  have hle := insertSlot_le q δ t
  have hlen := length_items t
  rw [← length_items, items_insertPage hnew, List.length_append, List.length_cons,
    List.length_take, List.length_drop, hlen]
  omega

theorem ids_insertPage {q : K} {δ : ℕ} {k : K} {v : V} (t : PagedTree K V I) :
    (insertPage q δ (leaf k v) t).ids = t.ids := by
  rw [← flatMap_items_ids, items_insertPage (by trivial), List.flatMap_append, List.flatMap_cons]
  show _ ++ ([] ++ _) = _
  rw [List.nil_append, ← List.flatMap_append, List.take_append_drop, flatMap_items_ids]

omit [LinearOrder K] [BitKey K] in
theorem eq_of_head_items {t x : PagedTree K V I} {xs : List (PagedTree K V I)}
    (h : t.items = x :: xs) : t.first = x.first := by
  have hx : t.items.head? = some x := by rw [h]; rfl
  clear h
  induction t with
  | leaf k v => simp only [items, List.head?_cons, Option.some.injEq] at hx; rw [← hx]
  | page i t ih => simp only [items, List.head?_cons, Option.some.injEq] at hx; rw [← hx]
  | node d l r ihl ihr =>
    rw [items, List.head?_append_of_ne_nil _ (items_ne_nil l)] at hx
    exact ihl hx

omit [LinearOrder K] [BitKey K] in
theorem eq_of_last_items {t x : PagedTree K V I} (xs : List (PagedTree K V I))
    (h : t.items = xs ++ [x]) : t.last = x.last := by
  have hx : t.items.getLast? = some x := by rw [h]; exact List.getLast?_concat
  clear h
  induction t with
  | leaf k v => simp only [items, List.getLast?_singleton, Option.some.injEq] at hx; rw [← hx]
  | page i t ih => simp only [items, List.getLast?_singleton, Option.some.injEq] at hx; rw [← hx]
  | node d l r ihl ihr =>
    rw [items, List.getLast?_append_of_ne_nil _ (items_ne_nil r)] at hx
    exact ihr hx

/-- The leftmost value of the larger page. -/
theorem first_insertPage {q : K} {δ : ℕ} {new : PagedTree K V I} (hnew : new.IsItem)
    (t : PagedTree K V I) :
    (insertPage q δ new t).first = if t.insertSlot q δ = 0 then new.first else t.first := by
  have hitems := items_insertPage (q := q) (δ := δ) hnew t
  by_cases h0 : t.insertSlot q δ = 0
  · rw [if_pos h0]
    rw [h0, List.take_zero, List.nil_append] at hitems
    exact eq_of_head_items hitems
  · rw [if_neg h0]
    cases hi : t.items with
    | nil => exact absurd hi (items_ne_nil t)
    | cons x xs =>
      obtain ⟨n, hn⟩ := Nat.exists_eq_succ_of_ne_zero h0
      rw [hi, hn, List.take_succ_cons, List.cons_append] at hitems
      rw [eq_of_head_items hitems, eq_of_head_items hi]

/-- The rightmost value of the larger page. -/
theorem last_insertPage {q : K} {δ : ℕ} {new : PagedTree K V I} (hnew : new.IsItem)
    (t : PagedTree K V I) :
    (insertPage q δ new t).last = if t.insertSlot q δ = t.width then new.last else t.last := by
  have hitems := items_insertPage (q := q) (δ := δ) hnew t
  have hle := insertSlot_le q δ t
  have hlen := length_items t
  by_cases hw : t.insertSlot q δ = t.width
  · rw [if_pos hw]
    rw [hw, ← hlen, List.drop_length] at hitems
    exact eq_of_last_items _ hitems
  · rw [if_neg hw]
    have hd : t.items.drop (t.insertSlot q δ) ≠ [] := by
      intro h
      have := congrArg List.length h
      rw [List.length_drop, List.length_nil] at this
      omega
    have hsplit := List.dropLast_append_getLast hd
    have hlast := eq_of_last_items (t.items.take (t.insertSlot q δ) ++ (t.items.drop (t.insertSlot q δ)).dropLast) (t := t) (x := (t.items.drop (t.insertSlot q δ)).getLast hd)
      (by rw [List.append_assoc, hsplit, List.take_append_drop])
    rw [hlast]
    refine eq_of_last_items (t.items.take (t.insertSlot q δ) ++ new
      :: (t.items.drop (t.insertSlot q δ)).dropLast) ?_
    rw [hitems, List.append_assoc, List.cons_append, hsplit]

/-- The first difference of `q` from the leaf it is routed to. -/
def Near (q : K) (δ : ℕ) (t : PagedTree K V I) : Prop :=
  AgreeBelow δ q (t.find q).1 ∧ bit q δ ≠ bit (t.find q).1 δ

theorem Near.nearKey {q : K} {δ : ℕ} {t : PagedTree K V I} (h : Near q δ t) : NearKey q δ t :=
  ⟨_, find_mem q t, h.1⟩

/-- No branch on the way of `q` sits exactly at its first difference. -/
theorem Near.ne_turn {q : K} {δ : ℕ} {d : ℕ} {l r : PagedTree K V I}
    (hv : (node d l r).Valid) (h : Near q δ (node d l r)) : d ≠ δ := by
  rintro rfl
  apply h.2
  simp only [find]
  split
  · rename_i hb
    rw [hb, (hv.1 _ l.first_mem _ (find_mem q r)).2.2]
  · rename_i hb
    rw [(hv.1 _ (find_mem q l) _ r.first_mem).2.1]
    simpa using hb

/-- Every key below a branch above `δ` agrees below `δ` with every other one, and at `δ` too. -/
theorem Valid.agree_of_lt {d δ : ℕ} {l r : PagedTree K V I} (h : (node d l r).Valid)
    (hδ : δ < d) : ∀ a ∈ (node d l r).entries, ∀ b ∈ (node d l r).entries,
      AgreeBelow (δ + 1) a.1 b.1 := by
  have hcross : ∀ a ∈ l.entries, ∀ b ∈ r.entries, AgreeBelow (δ + 1) a.1 b.1 :=
    fun a ha b hb => (h.1 a ha b hb).1.mono hδ
  intro a ha b hb
  rcases List.mem_append.mp ha with ha | ha <;> rcases List.mem_append.mp hb with hb | hb
  · exact (hcross a ha _ r.first_mem).trans (hcross b hb _ r.first_mem).symm
  · exact hcross a ha b hb
  · exact (hcross b hb a ha).symm
  · exact (hcross _ l.first_mem a ha).symm.trans (hcross _ l.first_mem b hb)

theorem Valid.join {q : K} {δ : ℕ} {new s : PagedTree K V I} (hs : s.Valid) (hn : new.Valid)
    (hnk : ∀ e ∈ new.entries, e.1 = q)
    (hk : ∀ e ∈ s.entries, AgreeBelow δ q e.1 ∧ bit q δ ≠ bit e.1 δ) :
    (join q δ new s).Valid := by
  unfold PagedTree.join
  split
  · rename_i hb
    refine ⟨fun a ha b hb' => ?_, hs, hn⟩
    obtain ⟨h1, h2⟩ := hk a ha
    rw [hnk b hb']
    refine ⟨h1.symm, ?_, hb⟩
    rw [hb] at h2
    simpa using h2.symm
  · rename_i hb
    refine ⟨fun a ha b hb' => ?_, hn, hs⟩
    obtain ⟨h1, h2⟩ := hk b hb'
    rw [hnk a ha]
    have hq : bit q δ = false := by simpa using hb
    refine ⟨h1, hq, ?_⟩
    rw [hq] at h2
    simpa using h2.symm

/-- All keys of a subtree differ from `q` first at `δ`, when `q` is near it and it is a single
leaf or has its branch above `δ`. -/
theorem Near.all {q : K} {δ : ℕ} {d : ℕ} {l r : PagedTree K V I} (hv : (node d l r).Valid)
    (h : Near q δ (node d l r)) (hδ : δ < d) :
    ∀ e ∈ (node d l r).entries, AgreeBelow δ q e.1 ∧ bit q δ ≠ bit e.1 δ := by
  intro e he
  have hag := hv.agree_of_lt hδ _ (find_mem q (node d l r)) e he
  refine ⟨h.1.trans (hag.mono (Nat.le_succ δ)), ?_⟩
  rw [← hag δ (Nat.lt_succ_self δ)]
  exact h.2

/-! ### Where a new item may go -/

/-- The page on the way of `q` that takes the new item: it has a branch above `δ`, or `q` ends
there at a leaf. -/
def TakesInsert (q : K) (δ : ℕ) (t : PagedTree K V I) : Prop :=
  t.HasAbove q δ ∨ ∃ k v, (t.slotCtx q).2 = leaf k v

/-- **Adding a key to the right page keeps the tree valid.** -/
theorem Valid.insertPage {q : K} {δ : ℕ} {new t : PagedTree K V I} (h : t.Valid)
    (hn : new.Valid) (hnk : ∀ e ∈ new.entries, e.1 = q) (hnear : Near q δ t)
    (htake : TakesInsert q δ t) : (PagedTree.insertPage q δ new t).Valid := by
  induction t with
  | leaf k v =>
    refine Valid.join h hn hnk (fun e he => ?_)
    rw [List.mem_singleton.mp he]
    exact hnear
  | page i t ih =>
    rcases htake with h1 | ⟨k, v, h1⟩
    · exact h1.elim
    · exact PagedTree.noConfusion rfl rfl rfl (heq_of_eq h1)
  | node d l r ihl ihr =>
    have hne := hnear.ne_turn h
    simp only [PagedTree.insertPage]
    split
    · rename_i hδ
      exact Valid.join h hn hnk (hnear.all h hδ)
    · rename_i hδ
      have hlt : d < δ := by omega
      have hk := find_mem q (node d l r)
      split
      · rename_i hb
        have hf : (node d l r).find q = r.find q := by simp only [find, if_pos hb]
        have hnr : Near q δ r := by unfold Near at hnear ⊢; rwa [hf] at hnear
        have htr : TakesInsert q δ r := by
          unfold TakesInsert at htake ⊢
          simpa only [HasAbove, slotCtx, if_pos hb, hδ, false_or] using htake
        refine ⟨fun a ha b hb' => ?_, h.2.1, ihr h.2.2 hnr htr⟩
        rcases mem_entries_insertPage.mp hb' with hb' | hb'
        · rw [hnk b hb']
          exact (h.1 a ha _ (find_mem q r)).congr_right hnr.1 hlt
        · exact h.1 a ha b hb'
      · rename_i hb
        have hf : (node d l r).find q = l.find q := by simp only [find, if_neg hb]
        have hnl : Near q δ l := by unfold Near at hnear ⊢; rwa [hf] at hnear
        have htl : TakesInsert q δ l := by
          unfold TakesInsert at htake ⊢
          simpa only [HasAbove, slotCtx, if_neg hb, hδ, false_or] using htake
        refine ⟨fun a ha b hb' => ?_, ihl h.2.1 hnl htl, h.2.2⟩
        rcases mem_entries_insertPage.mp ha with ha | ha
        · rw [hnk a ha]
          exact (h.1 _ (find_mem q l) b hb').congr_left hnl.1 hlt
        · exact h.1 a ha b hb'

end PagedTree

/-! ### Taking an item out of a page -/

namespace Ctx

open PagedTree

variable {K V I : Type}

/-- The page without its hole: the neighbour subtree of the hole moves up. -/
def remove : Ctx K V I → Option (PagedTree K V I)
  | hole => none
  | left d c r => some (match remove c with
    | none => r
    | some t => node d t r)
  | right d l c => some (match remove c with
    | none => l
    | some t => node d l t)

theorem remove_eq_none {c : Ctx K V I} (h : c.remove = none) : c = hole := by
  cases c with
  | hole => rfl
  | left d c r => exact absurd h (by simp [remove])
  | right d l c => exact absurd h (by simp [remove])

theorem items_remove (c : Ctx K V I) {t : PagedTree K V I} (h : c.remove = some t) :
    t.items = c.leftItems ++ c.rightItems := by
  induction c generalizing t with
  | hole => exact absurd h (by simp [remove])
  | left d c r ih =>
    cases hc : c.remove with
    | none =>
      rw [remove_eq_none hc] at h ⊢
      simp only [remove, Option.some.injEq] at h
      simp [leftItems, rightItems, h]
    | some t' =>
      simp only [remove, hc, Option.some.injEq] at h
      subst h
      simp [leftItems, rightItems, items, ih hc]
  | right d l c ih =>
    cases hc : c.remove with
    | none =>
      rw [remove_eq_none hc] at h ⊢
      simp only [remove, Option.some.injEq] at h
      simp [leftItems, rightItems, h]
    | some t' =>
      simp only [remove, hc, Option.some.injEq] at h
      subst h
      simp [leftItems, rightItems, items, ih hc]

theorem entries_remove (c : Ctx K V I) {t : PagedTree K V I} (h : c.remove = some t) :
    t.entries = c.leftEntries ++ c.rightEntries := by
  rw [← flatMap_items, items_remove c h, List.flatMap_append]
  rfl

theorem ids_remove (c : Ctx K V I) {t : PagedTree K V I} (h : c.remove = some t) :
    t.ids = c.leftIds ++ c.rightIds := by
  rw [← flatMap_items_ids, items_remove c h, List.flatMap_append]
  rfl

theorem width_remove (c : Ctx K V I) {t : PagedTree K V I} (h : c.remove = some t) :
    t.width = c.slot + c.rightItems.length := by
  rw [← length_items, items_remove c h, List.length_append]
  rfl

/-- The leftmost value of the smaller page: that of its second item when the first one goes. -/
theorem first_remove {c : Ctx K V I} {x t : PagedTree K V I} (hx : x.IsItem)
    (h : c.remove = some t) :
    (c.slot = 0 ∧ ∃ y, (c.fill x).items[1]? = some y ∧ y ∈ c.leftItems ++ c.rightItems ∧
      y.first = t.first) ∨
    (c.slot ≠ 0 ∧ (c.fill x).first = t.first) := by
  have hitems := items_remove c h
  have hfill := items_fill c x
  rw [items_of_isItem hx] at hfill
  cases hl : c.leftItems with
  | nil =>
    rw [hl] at hitems hfill
    cases hr : c.rightItems with
    | nil =>
      rw [hr] at hitems
      exact absurd hitems (items_ne_nil t)
    | cons y ys =>
      rw [hr] at hitems hfill
      refine Or.inl ⟨by rw [slot, hl]; rfl, y, by rw [hfill]; rfl, by simp, ?_⟩
      exact (eq_of_head_items hitems).symm
  | cons y ys =>
    rw [hl] at hitems hfill
    refine Or.inr ⟨by rw [slot, hl]; simp, ?_⟩
    rw [eq_of_head_items hitems, eq_of_head_items hfill]

/-- The rightmost value of the smaller page. -/
theorem last_remove {c : Ctx K V I} {x t : PagedTree K V I} (hx : x.IsItem)
    (h : c.remove = some t) :
    (c.slot = (c.fill x).width - 1 ∧ ∃ y, (c.fill x).items[(c.fill x).width - 2]? = some y ∧
      y ∈ c.leftItems ++ c.rightItems ∧ y.last = t.last) ∨
    (c.slot ≠ (c.fill x).width - 1 ∧ (c.fill x).last = t.last) := by
  have hitems := items_remove c h
  have hfill := items_fill c x
  have hw := width_fill c x
  rw [width_eq_one_of_isItem hx] at hw
  rw [items_of_isItem hx] at hfill
  rcases List.eq_nil_or_concat c.rightItems with hr | ⟨ys, y, hr⟩
  · rw [hr, List.append_nil] at hitems hfill
    rw [hr, List.length_nil] at hw
    rcases List.eq_nil_or_concat c.leftItems with hl | ⟨ys, y, hl⟩
    · rw [hl] at hitems
      exact absurd hitems (items_ne_nil t)
    · rw [List.concat_eq_append] at hl
      rw [hl] at hitems
      refine Or.inl ⟨by omega, y, ?_, by rw [hl]; simp, (eq_of_last_items _ hitems).symm⟩
      have hlen : (c.fill x).width - 2 = ys.length := by
        rw [hw, slot, hl, List.length_append]
        simp
      rw [hfill, hl, hlen, List.append_assoc, List.getElem?_append_right (le_refl _), Nat.sub_self]
      rfl
  · rw [List.concat_eq_append] at hr
    rw [hr, ← List.append_assoc] at hitems hfill
    refine Or.inr ⟨?_, ?_⟩
    · rw [hw, hr, List.length_append, List.length_singleton]
      omega
    · rw [eq_of_last_items _ hitems, eq_of_last_items _ hfill]

variable [LinearOrder K] [BitKey K]

theorem valid_remove {c : Ctx K V I} {s t : PagedTree K V I} (hv : (c.fill s).Valid)
    (h : c.remove = some t) : t.Valid := by
  have hsub : ∀ (c' : Ctx K V I) (t' : PagedTree K V I), c'.remove = some t' →
      ∀ e ∈ t'.entries, e ∈ (c'.fill s).entries := by
    intro c' t' ht' e he
    rw [entries_remove c' ht', List.mem_append] at he
    rw [mem_entries_fill]
    tauto
  induction c generalizing t with
  | hole => exact absurd h (by simp [remove])
  | left d c r ih =>
    cases hc : c.remove with
    | none =>
      simp only [remove, hc, Option.some.injEq] at h
      exact h ▸ hv.2.2
    | some t' =>
      simp only [remove, hc, Option.some.injEq] at h
      subst h
      exact ⟨fun a ha b hb => hv.1 a (hsub c t' hc a ha) b hb, ih hv.2.1 hc, hv.2.2⟩
  | right d l c ih =>
    cases hc : c.remove with
    | none =>
      simp only [remove, hc, Option.some.injEq] at h
      exact h ▸ hv.2.1
    | some t' =>
      simp only [remove, hc, Option.some.injEq] at h
      subst h
      exact ⟨fun a ha b hb => hv.1 a ha b (hsub c t' hc b hb), hv.2.1, ih hv.2.2 hc⟩

end Ctx

/-! ### Neighbouring items -/

namespace PagedTree

variable {K V I : Type} [LinearOrder K] [BitKey K]

/-- The numbers `ds` are the first differences of neighbouring items. -/
inductive Adjacent : List (PagedTree K V I) → List ℕ → Prop where
  | single (x : PagedTree K V I) : Adjacent [x] []
  | cons {x y : PagedTree K V I} {ys : List (PagedTree K V I)} {d : ℕ} {ds : List ℕ} :
      DiffAt d x.lastKey y.firstKey → Adjacent (y :: ys) ds → Adjacent (x :: y :: ys) (d :: ds)

theorem Adjacent.append {xs ys : List (PagedTree K V I)} {ds es : List ℕ} {d : ℕ}
    {x y : PagedTree K V I} (hxs : Adjacent xs ds) (hys : Adjacent ys es)
    (hx : xs.getLast? = some x) (hy : ys.head? = some y)
    (hd : DiffAt d x.lastKey y.firstKey) : Adjacent (xs ++ ys) (ds ++ d :: es) := by
  induction hxs with
  | single z =>
    cases ys with
    | nil => exact absurd hy (by simp)
    | cons y' ys' =>
      simp only [List.head?_cons, Option.some.injEq] at hy
      simp only [List.getLast?_singleton, Option.some.injEq] at hx
      subst hy hx
      exact Adjacent.cons hd hys
  | cons h1 h2 ih =>
    rw [List.getLast?_cons_cons] at hx
    exact Adjacent.cons h1 (ih hx)

omit [LinearOrder K] [BitKey K] in
theorem firstKey_head_items {t x : PagedTree K V I} (h : t.items.head? = some x) :
    x.firstKey = t.firstKey ∧ x.first = t.first := by
  induction t with
  | leaf k v => simp only [items, List.head?_cons, Option.some.injEq] at h; subst h; exact ⟨rfl, rfl⟩
  | page i t ih => simp only [items, List.head?_cons, Option.some.injEq] at h; subst h; exact ⟨rfl, rfl⟩
  | node d l r ihl ihr =>
    rw [items, List.head?_append_of_ne_nil _ (items_ne_nil l)] at h
    exact ihl h

omit [LinearOrder K] [BitKey K] in
theorem lastKey_getLast_items {t x : PagedTree K V I} (h : t.items.getLast? = some x) :
    x.lastKey = t.lastKey ∧ x.last = t.last := by
  induction t with
  | leaf k v => simp only [items, List.getLast?_singleton, Option.some.injEq] at h; subst h; exact ⟨rfl, rfl⟩
  | page i t ih => simp only [items, List.getLast?_singleton, Option.some.injEq] at h; subst h; exact ⟨rfl, rfl⟩
  | node d l r ihl ihr =>
    rw [items, List.getLast?_append_of_ne_nil _ (items_ne_nil r)] at h
    exact ihr h

/-- **The branch positions of a page are the differences of its neighbouring items.** -/
theorem Valid.adjacent {t : PagedTree K V I} (h : t.Valid) : Adjacent t.items t.diffs := by
  induction t with
  | leaf k v => exact Adjacent.single _
  | page i t ih => exact Adjacent.single _
  | node d l r ihl ihr =>
    obtain ⟨x, hx⟩ : ∃ x, l.items.getLast? = some x :=
      ⟨_, List.getLast?_eq_some_getLast (items_ne_nil l)⟩
    obtain ⟨y, hy⟩ : ∃ y, r.items.head? = some y :=
      ⟨_, List.head?_eq_some_head (items_ne_nil r)⟩
    refine Adjacent.append (ihl h.2.1) (ihr h.2.2) hx hy ?_
    rw [(lastKey_getLast_items hx).1, (firstKey_head_items hy).1]
    exact h.1 _ l.last_mem _ r.first_mem

end PagedTree

end MinweightStore
