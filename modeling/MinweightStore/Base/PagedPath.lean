import MinweightStore.Base.PagedTreeOps

/-!
# Paths of pages

A way from the root of a paged tree down to one subtree, page by page: for every page passed, its
identifier and the page with a hole where the way goes on.

* `Path.fill` — the tree around a subtree; its entries, identifiers and validity;
* `Path.allPages_fill` — a property of all pages splits into the pages on the way, the pages
  beside it and the pages below;
* `depth` — the number of nested pages, at most the number of identifiers.
-/

namespace MinweightStore

open BitKey

namespace PagedTree

variable {K V I : Type}

/-- The number of pages nested below each other, the outermost one included. -/
def depth : PagedTree K V I → ℕ
  | leaf _ _ => 1
  | page _ t => depth t + 1
  | node _ l r => max (depth l) (depth r)

theorem one_le_depth (t : PagedTree K V I) : 1 ≤ t.depth := by
  induction t with
  | leaf k v => exact le_refl 1
  | page i t ih => exact Nat.le_add_left 1 _
  | node d l r ihl ihr => exact le_trans ihl (le_max_left _ _)

theorem depth_le_length_ids (t : PagedTree K V I) : t.depth ≤ t.ids.length + 1 := by
  induction t with
  | leaf k v => exact le_refl 1
  | page i t ih => exact Nat.succ_le_succ ih
  | node d l r ihl ihr =>
    simp only [depth, ids, List.length_append]
    omega

theorem allPages_iff_items {P : I → PagedTree K V I → Prop} (t : PagedTree K V I) :
    AllPages P t ↔ ∀ x ∈ t.items, AllPages P x := by
  induction t with
  | leaf k v => simp [items]
  | page i t ih => simp [items]
  | node d l r ihl ihr =>
    simp only [items, AllPages, ihl, ihr, List.mem_append]
    constructor
    · rintro ⟨hl, hr⟩ x (hx | hx)
      · exact hl x hx
      · exact hr x hx
    · exact fun h => ⟨fun x hx => h x (Or.inl hx), fun x hx => h x (Or.inr hx)⟩

end PagedTree

namespace Ctx

open PagedTree

variable {K V I : Type}

theorem depth_fill (c : Ctx K V I) (x : PagedTree K V I) : x.depth ≤ (c.fill x).depth := by
  induction c with
  | hole => exact le_refl _
  | left d c r ih => exact le_trans ih (le_max_left _ _)
  | right d l c ih => exact le_trans ih (le_max_right _ _)

/-- A property of all pages beside the hole. -/
def AllRest (P : I → PagedTree K V I → Prop) (c : Ctx K V I) : Prop :=
  ∀ x ∈ c.leftItems ++ c.rightItems, AllPages P x

theorem allPages_fill {P : I → PagedTree K V I → Prop} (c : Ctx K V I) (x : PagedTree K V I) :
    AllPages P (c.fill x) ↔ AllPages P x ∧ c.AllRest P := by
  rw [allPages_iff_items (c.fill x), items_fill, AllRest, allPages_iff_items x]
  simp only [List.mem_append]
  constructor
  · exact fun h => ⟨fun y hy => h y (Or.inl (Or.inr hy)),
      fun y hy => hy.elim (fun hl => h y (Or.inl (Or.inl hl))) (fun hr => h y (Or.inr hr))⟩
  · rintro ⟨hx, hrest⟩ y ((hl | hm) | hr)
    · exact hrest y (Or.inl hl)
    · exact hx y hm
    · exact hrest y (Or.inr hr)

theorem AllRest.congr {P Q : I → PagedTree K V I → Prop} {c : Ctx K V I}
    (h : ∀ i ∈ c.leftIds ++ c.rightIds, ∀ s, P i s → Q i s) (hp : c.AllRest P) : c.AllRest Q := by
  intro x hx
  refine AllPages.congr x (fun i hi => h i ?_) (hp x hx)
  rw [leftIds, rightIds, ← List.flatMap_append]
  exact List.mem_flatMap.mpr ⟨x, hx, hi⟩

theorem allPages_remove {P : I → PagedTree K V I → Prop} {c : Ctx K V I} {t : PagedTree K V I}
    (h : c.remove = some t) : AllPages P t ↔ c.AllRest P := by
  rw [allPages_iff_items, items_remove c h, AllRest]

end Ctx

namespace Ctx

open PagedTree

variable {K V I : Type} [LinearOrder K] [BitKey K]

/-- Below turns that `q` takes, `q` is routed as from the top. -/
theorem find_fill {q : K} {c : Ctx K V I} {x : PagedTree K V I} (h : c.Along q) :
    (c.fill x).find q = x.find q := by
  induction c with
  | hole => rfl
  | left d c r ih =>
    simp only [fill, find]
    rw [if_neg (by rw [h.1]; decide)]
    exact ih h.2
  | right d l c ih =>
    simp only [fill, find]
    rw [if_pos h.1]
    exact ih h.2

/-- No turn sits exactly at the first difference. -/
theorem turns_ne {q : K} {δ : ℕ} {c : Ctx K V I} {x : PagedTree K V I}
    (hv : (c.fill x).Valid) (h : c.Along q) (hnear : Near q δ x) : ∀ d ∈ c.turns, d ≠ δ := by
  induction c with
  | hole => intro d hd; exact absurd hd List.not_mem_nil
  | left e c r ih =>
    have hn : Near q δ ((Ctx.left e c r).fill x) := by
      unfold Near at hnear ⊢
      rw [find_fill h]
      exact hnear
    intro d hd
    rcases List.mem_cons.mp hd with rfl | hd
    · exact hn.ne_turn hv
    · exact ih hv.2.1 h.2 d hd
  | right e l c ih =>
    have hn : Near q δ ((Ctx.right e l c).fill x) := by
      unfold Near at hnear ⊢
      rw [find_fill h]
      exact hnear
    intro d hd
    rcases List.mem_cons.mp hd with rfl | hd
    · exact hn.ne_turn hv
    · exact ih hv.2.2 h.2 d hd

end Ctx

/-- The pages passed on a way down, the innermost first, each with a hole at the way. -/
abbrev Path (K V I : Type) := List (Ctx K V I × I)

namespace Path

open PagedTree

variable {K V I : Type}

/-- The tree around a subtree. -/
def fill : Path K V I → PagedTree K V I → PagedTree K V I
  | [], x => x
  | (c, i) :: z, x => fill z (.page i (c.fill x))

/-- The identifiers of the pages on the way and of all pages beside it. -/
def ids (z : Path K V I) : List I := z.flatMap fun ci => ci.2 :: (ci.1.leftIds ++ ci.1.rightIds)

/-- The entries to the left of the way. -/
def leftEntries : Path K V I → List (K × V)
  | [] => []
  | (c, _) :: z => leftEntries z ++ c.leftEntries

/-- The entries to the right of the way. -/
def rightEntries : Path K V I → List (K × V)
  | [] => []
  | (c, _) :: z => c.rightEntries ++ rightEntries z

theorem fill_append (z w : Path K V I) (x : PagedTree K V I) :
    fill (z ++ w) x = fill w (fill z x) := by
  induction z generalizing x with
  | nil => rfl
  | cons ci z ih => exact ih _

theorem entries_fill (z : Path K V I) (x : PagedTree K V I) :
    (fill z x).entries = leftEntries z ++ x.entries ++ rightEntries z := by
  induction z generalizing x with
  | nil => simp [fill, leftEntries, rightEntries]
  | cons ci z ih =>
    simp only [fill, ih, entries, Ctx.entries_fill, leftEntries, rightEntries, List.append_assoc]

theorem perm_ids_fill (z : Path K V I) (x : PagedTree K V I) :
    (fill z x).ids.Perm (x.ids ++ z.ids) := by
  induction z generalizing x with
  | nil => simp [fill, ids]
  | cons ci z ih =>
    obtain ⟨c, i⟩ := ci
    refine (ih _).trans ?_
    have hperm : (PagedTree.page i (c.fill x)).ids.Perm
        (x.ids ++ (i :: (c.leftIds ++ c.rightIds))) := by
      simp only [PagedTree.ids, Ctx.ids_fill]
      refine (List.Perm.cons i ?_).trans List.perm_middle.symm
      rw [← List.append_assoc]
      exact List.Perm.append_right _ List.perm_append_comm
    refine (List.Perm.append_right _ hperm).trans ?_
    rw [List.append_assoc]
    exact List.Perm.refl _

theorem nodup_fill {z : Path K V I} {x : PagedTree K V I} :
    (fill z x).ids.Nodup ↔ (x.ids ++ z.ids).Nodup :=
  (perm_ids_fill z x).nodup_iff

theorem mem_ids_fill {z : Path K V I} {x : PagedTree K V I} {i : I} :
    i ∈ (fill z x).ids ↔ i ∈ x.ids ∨ i ∈ z.ids := by
  rw [(perm_ids_fill z x).mem_iff, List.mem_append]

theorem depth_fill (z : Path K V I) (x : PagedTree K V I) :
    x.depth + z.length ≤ (fill z x).depth := by
  induction z generalizing x with
  | nil => exact le_refl _
  | cons ci z ih =>
    have h1 := Ctx.depth_fill ci.1 x
    have h2 := ih (.page ci.2 (ci.1.fill x))
    simp only [PagedTree.depth, List.length_cons, fill] at h2 ⊢
    omega

/-! ### Properties of all pages -/

/-- A property of the pages beside the way. -/
def AllRest (P : I → PagedTree K V I → Prop) (z : Path K V I) : Prop :=
  ∀ ci ∈ z, ci.1.AllRest P

/-- A property of the pages on the way. -/
def Levels (P : I → PagedTree K V I → Prop) : Path K V I → PagedTree K V I → Prop
  | [], _ => True
  | (c, i) :: z, x => P i (c.fill x) ∧ Levels P z (.page i (c.fill x))

/-- **All pages of a filled path**: those below, those beside the way, those on the way. -/
theorem allPages_fill {P : I → PagedTree K V I → Prop} (z : Path K V I) (x : PagedTree K V I) :
    AllPages P (fill z x) ↔ AllPages P x ∧ AllRest P z ∧ Levels P z x := by
  induction z generalizing x with
  | nil => simp [fill, AllRest, Levels]
  | cons ci z ih =>
    obtain ⟨c, i⟩ := ci
    simp only [fill, ih, AllPages, Ctx.allPages_fill, AllRest, Levels, List.forall_mem_cons]
    tauto

theorem rest_mem_ids {z : Path K V I} {ci : Ctx K V I × I} (hci : ci ∈ z) {i : I}
    (hi : i ∈ ci.1.leftIds ++ ci.1.rightIds) : i ∈ z.ids :=
  List.mem_flatMap.mpr ⟨ci, hci, List.mem_cons_of_mem _ hi⟩

theorem level_mem_ids {z : Path K V I} {ci : Ctx K V I × I} (hci : ci ∈ z) : ci.2 ∈ z.ids :=
  List.mem_flatMap.mpr ⟨ci, hci, List.mem_cons_self⟩

/-- A page beside the way is not on it. -/
theorem rest_ne_level : ∀ {z : Path K V I}, z.ids.Nodup → ∀ {ci : Ctx K V I × I}, ci ∈ z →
    ∀ {i : I}, i ∈ ci.1.leftIds ++ ci.1.rightIds → ∀ {cj : Ctx K V I × I}, cj ∈ z → i ≠ cj.2
  | [], _, _, hci, _, _, _, _ => absurd hci List.not_mem_nil
  | (c, k) :: z, hnd, ci, hci, i, hi, cj, hcj => by
    obtain ⟨hk, hrest⟩ : k ∉ (c.leftIds ++ c.rightIds) ++ Path.ids z ∧
        ((c.leftIds ++ c.rightIds) ++ Path.ids z).Nodup := List.nodup_cons.mp hnd
    obtain ⟨_, hz, hdisj⟩ := List.nodup_append.mp hrest
    rcases List.mem_cons.mp hci with rfl | hci' <;> rcases List.mem_cons.mp hcj with rfl | hcj'
    · rintro rfl
      exact hk (List.mem_append_left _ hi)
    · exact hdisj i hi _ (level_mem_ids hcj')
    · rintro rfl
      exact hk (List.mem_append_right _ (rest_mem_ids hci' hi))
    · exact rest_ne_level hz hci' hi hcj'

/-! ### The root -/

/-- A tree that is not a single child. -/
def NotPage (t : PagedTree K V I) : Prop := ∀ i s, t ≠ .page i s

theorem notPage_fill {c : Ctx K V I} {x y : PagedTree K V I} (h : NotPage (c.fill x))
    (hy : c = .hole → NotPage y) : NotPage (c.fill y) := by
  cases c with
  | hole => exact hy rfl
  | left d c r => exact fun i s h => PagedTree.noConfusion rfl rfl rfl (heq_of_eq h)
  | right d l c => exact fun i s h => PagedTree.noConfusion rfl rfl rfl (heq_of_eq h)

/-- **The root page stays**, and stays more than a single child, when the subtree below a path is
replaced by one that is itself no single child. -/
theorem root_fill {z : Path K V I} {i r : I} {s t : PagedTree K V I} (u : PagedTree K V I)
    (h : fill z (.page i s) = .page r t) (ht : NotPage t) (hu : z = [] → NotPage u) :
    ∃ t', fill z (.page i u) = .page r t' ∧ NotPage t' := by
  induction z generalizing i s u with
  | nil =>
    simp only [fill, PagedTree.page.injEq] at h
    obtain ⟨rfl, rfl⟩ := h
    exact ⟨u, rfl, hu rfl⟩
  | cons cj z ih =>
    obtain ⟨c, j⟩ := cj
    refine ih (s := c.fill (.page i s)) (c.fill (.page i u)) h (fun hz => ?_)
    subst hz
    simp only [fill, PagedTree.page.injEq] at h
    obtain ⟨rfl, rfl⟩ := h
    refine notPage_fill ht (fun hc => ?_)
    subst hc
    exact absurd rfl (ht i s)

/-! ### Validity -/

section Valid

variable [LinearOrder K] [BitKey K]

theorem Valid.of_fill {z : Path K V I} {x : PagedTree K V I} (h : (fill z x).Valid) : x.Valid := by
  induction z generalizing x with
  | nil => exact h
  | cons ci z ih => exact PagedTree.Valid.of_fill (c := ci.1) (ih (x := .page ci.2 (ci.1.fill x)) h)

/-- Replacing a subtree by one with no new keys keeps the tree valid. -/
theorem Valid.fill_congr {z : Path K V I} {x y : PagedTree K V I} (h : (fill z x).Valid)
    (hy : y.Valid) (hkeys : ∀ e ∈ y.entries, ∃ e' ∈ x.entries, e'.1 = e.1) :
    (fill z y).Valid := by
  induction z generalizing x y with
  | nil => exact hy
  | cons ci z ih =>
    obtain ⟨c, i⟩ := ci
    refine ih h ?_ ?_
    · exact PagedTree.Valid.fill_congr (c := c)
        (Valid.of_fill (z := z) (x := .page i (c.fill x)) h) hy hkeys
    · intro e he
      rcases mem_entries_fill.mp he with h1 | h1 | h1
      · exact ⟨e, mem_entries_fill.mpr (Or.inl h1), rfl⟩
      · obtain ⟨e', he', hk⟩ := hkeys e h1
        exact ⟨e', mem_entries_fill.mpr (Or.inr (Or.inl he')), hk⟩
      · exact ⟨e, mem_entries_fill.mpr (Or.inr (Or.inr h1)), rfl⟩

/-- Every turn on the way is the turn `q` takes. -/
def Along (q : K) (z : Path K V I) : Prop := ∀ ci ∈ z, ci.1.Along q

/-- Every turn on the way is below `δ`. -/
def TurnsBelow (δ : ℕ) (z : Path K V I) : Prop := ∀ ci ∈ z, ∀ d ∈ ci.1.turns, d < δ

/-- **Adding a key below a path.**  The new key follows the way, all of it above `δ`, and agrees
below `δ` with a key there. -/
theorem Valid.fill_insert {z : Path K V I} {x y : PagedTree K V I} {q : K} {δ : ℕ}
    (h : (fill z x).Valid) (hy : y.Valid) (halong : Along q z) (hturns : TurnsBelow δ z)
    (hnear : NearKey q δ x) (hkeys : ∀ e ∈ y.entries, e.1 = q ∨ e ∈ x.entries) :
    (fill z y).Valid := by
  induction z generalizing x y with
  | nil => exact hy
  | cons ci z ih =>
    obtain ⟨c, i⟩ := ci
    refine ih h ?_ (fun cj hj => halong cj (List.mem_cons_of_mem _ hj))
      (fun cj hj => hturns cj (List.mem_cons_of_mem _ hj)) ?_ ?_
    · exact PagedTree.Valid.fill_insert (c := c)
        (Valid.of_fill (z := z) (x := .page i (c.fill x)) h) hy
        (halong _ List.mem_cons_self) (hturns _ List.mem_cons_self) hnear hkeys
    · obtain ⟨e, he, hag⟩ := hnear
      exact ⟨e, mem_entries_fill.mpr (Or.inr (Or.inl he)), hag⟩
    · intro e he
      rcases mem_entries_fill.mp he with h1 | h1 | h1
      · exact Or.inr (mem_entries_fill.mpr (Or.inl h1))
      · exact (hkeys e h1).imp_right (fun h2 => mem_entries_fill.mpr (Or.inr (Or.inl h2)))
      · exact Or.inr (mem_entries_fill.mpr (Or.inr (Or.inr h1)))

/-- The leaf below a path that `q` follows is the leaf `q` is routed to. -/
theorem find_fill {z : Path K V I} {x : PagedTree K V I} {q : K} (halong : Along q z) :
    (fill z x).find q = x.find q := by
  induction z generalizing x with
  | nil => rfl
  | cons ci z ih =>
    obtain ⟨c, i⟩ := ci
    rw [fill, ih (fun cj hj => halong cj (List.mem_cons_of_mem _ hj))]
    exact Ctx.find_fill (halong _ List.mem_cons_self)

/-- No turn on the way sits exactly at the first difference. -/
theorem turns_ne {z : Path K V I} {x : PagedTree K V I} {q : K} {δ : ℕ}
    (hv : (fill z x).Valid) (halong : Along q z) (hnear : Near q δ x) :
    ∀ ci ∈ z, ∀ d ∈ ci.1.turns, d ≠ δ := by
  induction z generalizing x with
  | nil => intro ci hci; exact absurd hci List.not_mem_nil
  | cons ci z ih =>
    obtain ⟨c, i⟩ := ci
    have hc := halong _ List.mem_cons_self
    have hnear' : Near q δ (.page i (c.fill x)) := by
      unfold Near at hnear ⊢
      rw [show (PagedTree.page i (c.fill x)).find q = (c.fill x).find q from rfl, Ctx.find_fill hc]
      exact hnear
    intro cj hcj
    rcases List.mem_cons.mp hcj with rfl | hcj
    · exact Ctx.turns_ne (Valid.of_fill (z := z) (x := .page i (c.fill x)) hv) hc hnear
    · exact ih hv (fun ck hk => halong ck (List.mem_cons_of_mem _ hk)) hnear' cj hcj

/-- **A new leaf beside a page of a path** keeps the whole tree valid. -/
theorem Valid.fill_insertPage {z : Path K V I} {i : I} {s : PagedTree K V I} {q : K} {v : V}
    {δ : ℕ} (h : (fill z (.page i s)).Valid) (halong : Along q z) (hnear : Near q δ s)
    (htake : TakesInsert q δ s) (hle : ∀ ci ∈ z, ∀ d ∈ ci.1.turns, d ≤ δ) :
    (fill z (.page i (insertPage q δ (.leaf q v) s))).Valid := by
  have hbelow : s.Valid := Valid.of_fill (z := z) (x := .page i s) h
  have hpage : Near q δ (.page i s) := hnear
  refine Valid.fill_insert (δ := δ) (x := .page i s) h ?_ halong ?_ hpage.nearKey ?_
  · exact PagedTree.Valid.insertPage hbelow trivial
      (fun e he => by rw [List.mem_singleton.mp he]) hnear htake
  · intro ci hci d hd
    exact lt_of_le_of_ne (hle ci hci d hd) (turns_ne h halong hpage ci hci d hd)
  · intro e he
    simp only [entries, mem_entries_insertPage, List.mem_singleton] at he
    exact he.imp_left (fun he => by rw [he])

end Valid

end Path

end MinweightStore
