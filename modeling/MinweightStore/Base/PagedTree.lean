import MinweightStore.Base.BitOrder

/-!
# Paged Patricia trees

A binary trie with skipped bits whose edges may carry **page boundaries**.  The part of the tree
between a page boundary and the next ones below it is one page: its `items` are the leaves and
the boundaries it meets, its `preorder` is the list of its branch nodes as (bit position, number
of items on the left), and its `diffs` are the bit positions in item order.

* `Valid` — every branch position is the first difference of any key on its left with any key
  on its right; `Valid.sorted`, `Valid.lt_of_mem_diffs` (positions grow downwards);
* `Ctx` — a page with a hole at one subtree, `Ctx.fill`, and how every reading of the page
  splits at the hole;
* `find` — the leaf reached by testing only the branch positions, `find_of_mem`, `find_best`;
* `insertPage`, `Ctx.remove` — adding and removing one item of a page.
-/

namespace MinweightStore

open BitKey

/-- A Patricia tree with page boundaries on some of its edges. -/
inductive PagedTree (K V I : Type) where
  | leaf : K → V → PagedTree K V I
  | page : I → PagedTree K V I → PagedTree K V I
  | node : ℕ → PagedTree K V I → PagedTree K V I → PagedTree K V I

namespace PagedTree

variable {K V I : Type}

/-! ### Readings of a tree -/

/-- All stored entries from left to right, through page boundaries. -/
def entries : PagedTree K V I → List (K × V)
  | leaf k v => [(k, v)]
  | page _ t => entries t
  | node _ l r => entries l ++ entries r

/-- All page identifiers below, in preorder. -/
def ids : PagedTree K V I → List I
  | leaf _ _ => []
  | page i t => i :: ids t
  | node _ l r => ids l ++ ids r

/-- The items of the outermost page: leaves and page boundaries. -/
def items : PagedTree K V I → List (PagedTree K V I)
  | leaf k v => [leaf k v]
  | page i t => [page i t]
  | node _ l r => items l ++ items r

/-- The number of items of the outermost page. -/
def width : PagedTree K V I → ℕ
  | leaf _ _ => 1
  | page _ _ => 1
  | node _ l r => width l + width r

/-- The branch positions of the outermost page in item order. -/
def diffs : PagedTree K V I → List ℕ
  | leaf _ _ => []
  | page _ _ => []
  | node d l r => diffs l ++ d :: diffs r

/-- The branch nodes of the outermost page in preorder, with the number of items on the left. -/
def preorder : PagedTree K V I → List (ℕ × ℕ)
  | leaf _ _ => []
  | page _ _ => []
  | node d l r => (d, width l) :: (preorder l ++ preorder r)

/-- The value of the leftmost leaf. -/
def first : PagedTree K V I → V
  | leaf _ v => v
  | page _ t => first t
  | node _ l _ => first l

/-- The value of the rightmost leaf. -/
def last : PagedTree K V I → V
  | leaf _ v => v
  | page _ t => last t
  | node _ _ r => last r

/-- The key of the leftmost leaf. -/
def firstKey : PagedTree K V I → K
  | leaf k _ => k
  | page _ t => firstKey t
  | node _ l _ => firstKey l

/-- The key of the rightmost leaf. -/
def lastKey : PagedTree K V I → K
  | leaf k _ => k
  | page _ t => lastKey t
  | node _ _ r => lastKey r

/-- A single item of a page: a leaf or a page boundary. -/
def IsItem : PagedTree K V I → Prop
  | leaf _ _ => True
  | page _ _ => True
  | node _ _ _ => False

/-- A property of every page boundary below, the outermost page excluded. -/
def AllPages (P : I → PagedTree K V I → Prop) : PagedTree K V I → Prop
  | leaf _ _ => True
  | page i t => P i t ∧ AllPages P t
  | node _ l r => AllPages P l ∧ AllPages P r

theorem width_pos (t : PagedTree K V I) : 1 ≤ width t := by
  induction t with
  | leaf k v => exact le_refl 1
  | page i t ih => exact le_refl 1
  | node d l r ihl ihr => simp only [width]; omega

theorem length_items (t : PagedTree K V I) : t.items.length = t.width := by
  induction t with
  | leaf k v => rfl
  | page i t ih => rfl
  | node d l r ihl ihr => simp [items, width, ihl, ihr]

theorem length_diffs (t : PagedTree K V I) : t.diffs.length + 1 = t.width := by
  induction t with
  | leaf k v => rfl
  | page i t ih => rfl
  | node d l r ihl ihr => simp only [diffs, width, List.length_append, List.length_cons]; omega

theorem length_preorder (t : PagedTree K V I) : t.preorder.length + 1 = t.width := by
  induction t with
  | leaf k v => rfl
  | page i t ih => rfl
  | node d l r ihl ihr =>
    simp only [preorder, width, List.length_append, List.length_cons]
    omega

theorem width_eq_one_of_isItem {t : PagedTree K V I} (h : t.IsItem) : t.width = 1 := by
  cases t with
  | leaf k v => rfl
  | page i t => rfl
  | node d l r => exact h.elim

theorem isItem_of_width {t : PagedTree K V I} (h : t.width = 1) : t.IsItem := by
  cases t with
  | leaf k v => trivial
  | page i t => trivial
  | node d l r =>
    have h1 := width_pos l
    have h2 := width_pos r
    simp only [width] at h
    omega

theorem items_of_isItem {t : PagedTree K V I} (h : t.IsItem) : t.items = [t] := by
  cases t with
  | leaf k v => rfl
  | page i t => rfl
  | node d l r => exact h.elim

theorem isItem_of_mem_items {t s : PagedTree K V I} (h : s ∈ t.items) : s.IsItem := by
  induction t with
  | leaf k v => rw [List.mem_singleton.mp h]; trivial
  | page i t ih => rw [List.mem_singleton.mp h]; trivial
  | node d l r ihl ihr => exact (List.mem_append.mp h).elim ihl ihr

theorem entries_ne_nil (t : PagedTree K V I) : t.entries ≠ [] := by
  induction t with
  | leaf k v => simp [entries]
  | page i t ih => exact ih
  | node d l r ihl ihr => simp [entries, ihl]

theorem items_ne_nil (t : PagedTree K V I) : t.items ≠ [] := by
  intro h
  have h1 := length_items t
  have h2 := width_pos t
  rw [h, List.length_nil] at h1
  omega

theorem flatMap_items (t : PagedTree K V I) : t.items.flatMap entries = t.entries := by
  induction t with
  | leaf k v => rfl
  | page i t ih => simp [items, entries]
  | node d l r ihl ihr => simp [items, entries, ihl, ihr]

theorem flatMap_items_ids (t : PagedTree K V I) : t.items.flatMap ids = t.ids := by
  induction t with
  | leaf k v => rfl
  | page i t ih => simp [items, ids]
  | node d l r ihl ihr => simp [items, ids, ihl, ihr]

theorem head_entries (t : PagedTree K V I) :
    t.entries.head? = some (t.firstKey, t.first) := by
  induction t with
  | leaf k v => rfl
  | page i t ih => exact ih
  | node d l r ihl ihr => simp [entries, List.head?_append, ihl, first, firstKey]

theorem getLast_entries (t : PagedTree K V I) :
    t.entries.getLast? = some (t.lastKey, t.last) := by
  induction t with
  | leaf k v => rfl
  | page i t ih => exact ih
  | node d l r ihl ihr => simp [entries, List.getLast?_append, ihr, last, lastKey]

theorem first_mem (t : PagedTree K V I) : (t.firstKey, t.first) ∈ t.entries :=
  List.mem_of_mem_head? (head_entries t)

theorem last_mem (t : PagedTree K V I) : (t.lastKey, t.last) ∈ t.entries :=
  List.mem_of_mem_getLast? (getLast_entries t)

/-- `AllPages` only looks at the identifiers that occur. -/
theorem AllPages.congr {P Q : I → PagedTree K V I → Prop} :
    ∀ t : PagedTree K V I, (∀ i ∈ t.ids, ∀ s, P i s → Q i s) → AllPages P t → AllPages Q t
  | leaf _ _, _, _ => trivial
  | page i t, h, hp =>
    ⟨h i List.mem_cons_self t hp.1,
      AllPages.congr t (fun j hj => h j (List.mem_cons_of_mem i hj)) hp.2⟩
  | node _ l r, h, hp =>
    ⟨AllPages.congr l (fun j hj => h j (List.mem_append_left _ hj)) hp.1,
      AllPages.congr r (fun j hj => h j (List.mem_append_right _ hj)) hp.2⟩

/-! ### Validity and the order of the leaves -/

section Valid

variable [LinearOrder K] [BitKey K]

/-- Every branch position is the first difference across the branch. -/
def Valid : PagedTree K V I → Prop
  | leaf _ _ => True
  | page _ t => Valid t
  | node d l r =>
    (∀ a ∈ l.entries, ∀ b ∈ r.entries, DiffAt d a.1 b.1) ∧ Valid l ∧ Valid r

theorem Valid.sorted {t : PagedTree K V I} (h : t.Valid) :
    t.entries.Pairwise (fun a b => a.1 < b.1) := by
  induction t with
  | leaf k v => exact List.pairwise_singleton _ _
  | page i t ih => exact ih h
  | node d l r ihl ihr =>
    exact List.pairwise_append.mpr
      ⟨ihl h.2.1, ihr h.2.2, fun a ha b hb => (h.1 a ha b hb).lt⟩

/-- Every branch position of a page separates two of its keys. -/
theorem Valid.exists_of_mem_diffs {t : PagedTree K V I} (h : t.Valid) {e : ℕ}
    (he : e ∈ t.diffs) : ∃ a ∈ t.entries, ∃ b ∈ t.entries, DiffAt e a.1 b.1 := by
  induction t with
  | leaf k v => exact absurd he List.not_mem_nil
  | page i t ih => exact absurd he List.not_mem_nil
  | node d l r ihl ihr =>
    rcases List.mem_append.mp he with hl | hr
    · obtain ⟨a, ha, b, hb, hab⟩ := ihl h.2.1 hl
      exact ⟨a, List.mem_append_left _ ha, b, List.mem_append_left _ hb, hab⟩
    · rcases List.mem_cons.mp hr with rfl | hr
      · exact ⟨_, List.mem_append_left _ l.first_mem, _, List.mem_append_right _ r.first_mem,
          h.1 _ l.first_mem _ r.first_mem⟩
      · obtain ⟨a, ha, b, hb, hab⟩ := ihr h.2.2 hr
        exact ⟨a, List.mem_append_right _ ha, b, List.mem_append_right _ hb, hab⟩

/-- **Positions grow downwards**: below a branch every position of the page is larger. -/
theorem Valid.lt_of_mem_diffs {d : ℕ} {l r : PagedTree K V I} (h : (node d l r).Valid)
    {e : ℕ} (he : e ∈ l.diffs ∨ e ∈ r.diffs) : d < e := by
  rcases he with he | he
  · obtain ⟨a, ha, b, hb, hab⟩ := h.2.1.exists_of_mem_diffs he
    have hac := h.1 a ha _ r.first_mem
    have hbc := h.1 b hb _ r.first_mem
    obtain ⟨hne, hmin⟩ := hab.trans hbc
    have := hmin.unique hac
    omega
  · obtain ⟨a, ha, b, hb, hab⟩ := h.2.2.exists_of_mem_diffs he
    have hca := h.1 _ l.first_mem a ha
    have hcb := h.1 _ l.first_mem b hb
    obtain ⟨hne, hmin⟩ := hca.trans hab
    have := hmin.unique hcb
    omega

/-! ### Descent -/

/-- The leaf reached from the root by testing the branch positions of `q`. -/
def find (q : K) : PagedTree K V I → K × V
  | leaf k v => (k, v)
  | page _ t => find q t
  | node d l r => if bit q d then find q r else find q l

theorem find_mem (q : K) (t : PagedTree K V I) : t.find q ∈ t.entries := by
  induction t with
  | leaf k v => exact List.mem_singleton_self _
  | page i t ih => exact ih
  | node d l r ihl ihr =>
    simp only [find]
    split
    · exact List.mem_append_right _ ihr
    · exact List.mem_append_left _ ihl

/-- **A stored key is found.** -/
theorem Valid.find_of_mem {t : PagedTree K V I} (h : t.Valid) {q : K} {v : V}
    (hq : (q, v) ∈ t.entries) : t.find q = (q, v) := by
  induction t with
  | leaf k w => exact (List.mem_singleton.mp hq).symm
  | page i t ih => exact ih h hq
  | node d l r ihl ihr =>
    simp only [find]
    rcases List.mem_append.mp hq with hl | hr
    · have := (h.1 _ hl _ r.first_mem).2.1
      rw [if_neg (by simp only [this]; decide)]
      exact ihl h.2.1 hl
    · have := (h.1 _ l.first_mem _ hr).2.2
      rw [if_pos this]
      exact ihr h.2.2 hr

/-- **The leaf a key is routed to is a best match**: no stored key shares more bits with it. -/
theorem Valid.find_best {t : PagedTree K V I} (h : t.Valid) {q : K} {n : ℕ} {e : K × V}
    (he : e ∈ t.entries) (hq : AgreeBelow n q e.1) : AgreeBelow n q (t.find q).1 := by
  induction t with
  | leaf k v => rwa [List.mem_singleton.mp he] at hq
  | page i t ih => exact ih h he
  | node d l r ihl ihr =>
    simp only [find]
    split
    · rename_i hb
      rcases List.mem_append.mp he with hl | hr
      · have hd := h.1 e hl _ (find_mem q r)
        have hn : n ≤ d := by
          by_contra hlt
          have := hq d (Nat.lt_of_not_le hlt)
          rw [hb, hd.2.1] at this
          exact absurd this (by decide)
        exact hq.trans (hd.1.mono hn)
      · exact ihr h.2.2 hr
    · rename_i hb
      rcases List.mem_append.mp he with hl | hr
      · exact ihl h.2.1 hl
      · have hd := h.1 _ (find_mem q l) e hr
        have hn : n ≤ d := by
          by_contra hlt
          have := hq d (Nat.lt_of_not_le hlt)
          rw [hd.2.2] at this
          exact hb this
        exact hq.trans (hd.1.mono hn).symm

end Valid

/-! ### A single page -/

/-- A tree without page boundaries has a leaf for every entry. -/
theorem items_of_ids_nil {t : PagedTree K V I} (h : t.ids = []) :
    t.items = t.entries.map (fun e => leaf e.1 e.2) := by
  induction t with
  | leaf k v => rfl
  | page i t ih => exact absurd h (List.cons_ne_nil _ _)
  | node d l r ihl ihr =>
    obtain ⟨hl, hr⟩ := List.append_eq_nil_iff.mp h
    rw [items, entries, ihl hl, ihr hr, List.map_append]

theorem width_of_ids_nil {t : PagedTree K V I} (h : t.ids = []) :
    t.width = t.entries.length := by
  rw [← length_items, items_of_ids_nil h, List.length_map]

end PagedTree

/-! ### Pages with a hole -/

/-- A page with a hole at one of its subtrees. -/
inductive Ctx (K V I : Type) where
  | hole : Ctx K V I
  | left : ℕ → Ctx K V I → PagedTree K V I → Ctx K V I
  | right : ℕ → PagedTree K V I → Ctx K V I → Ctx K V I

namespace Ctx

open PagedTree

variable {K V I : Type}

/-- Put a subtree into the hole. -/
def fill : Ctx K V I → PagedTree K V I → PagedTree K V I
  | hole, s => s
  | left d c r, s => node d (fill c s) r
  | right d l c, s => node d l (fill c s)

/-- The items to the left of the hole. -/
def leftItems : Ctx K V I → List (PagedTree K V I)
  | hole => []
  | left _ c _ => leftItems c
  | right _ l c => l.items ++ leftItems c

/-- The items to the right of the hole. -/
def rightItems : Ctx K V I → List (PagedTree K V I)
  | hole => []
  | left _ c r => rightItems c ++ r.items
  | right _ _ c => rightItems c

/-- The branch positions up to the hole, the one just before it included. -/
def leftDiffs : Ctx K V I → List ℕ
  | hole => []
  | left _ c _ => leftDiffs c
  | right d l c => l.diffs ++ d :: leftDiffs c

/-- The branch positions from the hole on, the one just behind it included. -/
def rightDiffs : Ctx K V I → List ℕ
  | hole => []
  | left d c r => rightDiffs c ++ d :: r.diffs
  | right _ _ c => rightDiffs c

/-- The preorder up to the hole, when the hole holds `w` items. -/
def leftPre (w : ℕ) : Ctx K V I → List (ℕ × ℕ)
  | hole => []
  | left d c _ => (d, (leftItems c).length + w + (rightItems c).length) :: leftPre w c
  | right d l c => (d, l.width) :: (l.preorder ++ leftPre w c)

/-- The preorder behind the hole. -/
def rightPre : Ctx K V I → List (ℕ × ℕ)
  | hole => []
  | left _ c r => rightPre c ++ r.preorder
  | right _ _ c => rightPre c

/-- The entries to the left of the hole. -/
def leftEntries (c : Ctx K V I) : List (K × V) := c.leftItems.flatMap entries

/-- The entries to the right of the hole. -/
def rightEntries (c : Ctx K V I) : List (K × V) := c.rightItems.flatMap entries

/-- The page identifiers to the left of the hole. -/
def leftIds (c : Ctx K V I) : List I := c.leftItems.flatMap ids

/-- The page identifiers to the right of the hole. -/
def rightIds (c : Ctx K V I) : List I := c.rightItems.flatMap ids

/-- The number of items to the left of the hole. -/
def slot (c : Ctx K V I) : ℕ := c.leftItems.length

/-- The branch positions on the way to the hole. -/
def turns : Ctx K V I → List ℕ
  | hole => []
  | left d c _ => d :: turns c
  | right d _ c => d :: turns c

theorem items_fill (c : Ctx K V I) (s : PagedTree K V I) :
    (c.fill s).items = c.leftItems ++ s.items ++ c.rightItems := by
  induction c with
  | hole => simp [fill, leftItems, rightItems]
  | left d c r ih => simp [fill, leftItems, rightItems, items, ih]
  | right d l c ih => simp [fill, leftItems, rightItems, items, ih]

theorem width_fill (c : Ctx K V I) (s : PagedTree K V I) :
    (c.fill s).width = c.slot + s.width + c.rightItems.length := by
  rw [← length_items, items_fill, List.length_append, List.length_append, length_items]
  rfl

/-- Every item of a page is what some hole holds. -/
theorem exists_fill_of_lt {t : PagedTree K V I} {i : ℕ} (h : i < t.width) :
    ∃ (c : Ctx K V I) (x : PagedTree K V I), t = c.fill x ∧ x.IsItem ∧ c.slot = i := by
  induction t generalizing i with
  | leaf k v => exact ⟨hole, leaf k v, rfl, trivial, (Nat.lt_one_iff.mp h).symm⟩
  | page j t ih => exact ⟨hole, page j t, rfl, trivial, (Nat.lt_one_iff.mp h).symm⟩
  | node d l r ihl ihr =>
    simp only [width] at h
    by_cases hl : i < l.width
    · obtain ⟨c, x, hfill, hx, hslot⟩ := ihl hl
      exact ⟨left d c r, x, by rw [fill, ← hfill], hx, hslot⟩
    · obtain ⟨c, x, hfill, hx, hslot⟩ := ihr (i := i - l.width) (by omega)
      refine ⟨right d l c, x, by rw [fill, ← hfill], hx, ?_⟩
      simp only [slot, leftItems, List.length_append, length_items] at hslot ⊢
      omega

theorem diffs_fill (c : Ctx K V I) (s : PagedTree K V I) :
    (c.fill s).diffs = c.leftDiffs ++ s.diffs ++ c.rightDiffs := by
  induction c with
  | hole => simp [fill, leftDiffs, rightDiffs]
  | left d c r ih => simp [fill, leftDiffs, rightDiffs, diffs, ih]
  | right d l c ih => simp [fill, leftDiffs, rightDiffs, diffs, ih]

theorem preorder_fill (c : Ctx K V I) (s : PagedTree K V I) :
    (c.fill s).preorder = c.leftPre s.width ++ s.preorder ++ c.rightPre := by
  induction c with
  | hole => simp [fill, leftPre, rightPre]
  | left d c r ih =>
    simp [fill, leftPre, rightPre, preorder, ih, width_fill, slot]
  | right d l c ih => simp [fill, leftPre, rightPre, preorder, ih]

theorem length_leftDiffs (c : Ctx K V I) : c.leftDiffs.length = c.slot := by
  induction c with
  | hole => rfl
  | left d c r ih => exact ih
  | right d l c ih =>
    have := length_diffs l
    simp only [slot] at ih
    simp only [leftDiffs, slot, leftItems, List.length_append, List.length_cons, length_items, ih]
    omega

theorem entries_fill (c : Ctx K V I) (s : PagedTree K V I) :
    (c.fill s).entries = c.leftEntries ++ s.entries ++ c.rightEntries := by
  rw [← flatMap_items, items_fill, List.flatMap_append, List.flatMap_append, flatMap_items]
  rfl

theorem ids_fill (c : Ctx K V I) (s : PagedTree K V I) :
    (c.fill s).ids = c.leftIds ++ s.ids ++ c.rightIds := by
  rw [← flatMap_items_ids, items_fill, List.flatMap_append, List.flatMap_append,
    flatMap_items_ids]
  rfl

/-- The leftmost value depends on the hole only when nothing is to its left. -/
theorem first_fill (c : Ctx K V I) (s : PagedTree K V I) :
    (c.fill s).first = (c.leftEntries.head?.map Prod.snd).getD s.first := by
  have h := head_entries (c.fill s)
  rw [entries_fill, List.append_assoc, List.head?_append] at h
  cases hl : c.leftEntries.head? with
  | none =>
    rw [hl, Option.none_or, List.head?_append, head_entries, Option.some_or] at h
    exact (congrArg Prod.snd (Option.some.inj h)).symm
  | some e =>
    rw [hl, Option.some_or] at h
    rw [Option.some.inj h]
    rfl

theorem last_fill (c : Ctx K V I) (s : PagedTree K V I) :
    (c.fill s).last = (c.rightEntries.getLast?.map Prod.snd).getD s.last := by
  have h := getLast_entries (c.fill s)
  rw [entries_fill, List.getLast?_append] at h
  cases hr : c.rightEntries.getLast? with
  | none =>
    rw [hr, Option.none_or, List.getLast?_append, getLast_entries, Option.some_or] at h
    exact (congrArg Prod.snd (Option.some.inj h)).symm
  | some e =>
    rw [hr, Option.some_or] at h
    rw [Option.some.inj h]
    rfl

end Ctx

end MinweightStore
