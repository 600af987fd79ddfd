import PickledModel.Proofs.Tensor.PreviewRows

/-! The text of a content, line by line. An array opens and closes on lines of its own,
and each element and each cut has one, as far in as the arrays around it are many. As
long as all elements are integers of one 64-bit type, the lines tell what they show, so
no two contents share a text. -/

set_option autoImplicit false

namespace PickledModel.Tensor

namespace Content
open Row

section
variable {t : ElementType} (ht : t ∈ wideIntegers)
include ht

/-- The first line of a content is no closing bracket. -/
theorem rows_head_ne_closing {c : Content} (hc : c.Only t) {place : List Nat}
    {followed followed' : Bool} {u v : List String} :
    (rows place followed c).map Row.text ++ u ≠ (closing followed').text :: v := by
  cases c with
  | scalar s =>
    intro h
    have hentry := entry_ne_bracket ht place followed followed' <|
      (only_leaf_iff : (leaf (some s)).Only t ↔ _).mp hc
    exact hentry.2 (List.cons.inj h).1
  | cut =>
    intro h
    have hentry := entry_ne_bracket ht place followed followed' <|
      (only_leaf_iff : (leaf none).Only t ↔ _).mp hc
    exact hentry.2 (List.cons.inj h).1
  | array items =>
    intro h
    exact opening_ne_closing followed' (List.cons.inj h).1

def Tells (t : ElementType) (x : Content) : Prop :=
  x.Only t → ∀ y, y.Only t → ∀ place place' followed followed' (u v : List String),
    (rows place followed x).map Row.text ++ u = (rows place' followed' y).map Row.text ++ v →
    x = y ∧ followed = followed' ∧ u = v

/-- Items end at the closing bracket of their array. -/
theorem tells_items {items : List Content} (h : ∀ c ∈ items, Tells t c) :
    (∀ c ∈ items, c.Only t) → ∀ items' : List Content, (∀ c ∈ items', c.Only t) →
    ∀ place place' i i' followed followed' (u v : List String),
    (itemRows place i items).map Row.text ++ (closing followed).text :: u =
      (itemRows place' i' items').map Row.text ++ (closing followed').text :: v →
    items = items' ∧ followed = followed' ∧ u = v := by
  induction items with
  | nil =>
    intro _ items' hitems' place place' i i' followed followed' u v heq
    cases items' with
    | nil =>
      obtain ⟨hclosing, huv⟩ := List.cons.inj heq
      exact ⟨rfl, closing_injective hclosing, huv⟩
    | cons d items' =>
      rw [itemRows, itemRows, List.map_append, List.append_assoc] at heq
      exact absurd heq.symm (rows_head_ne_closing ht (hitems' d List.mem_cons_self))
  | cons c items ih =>
    intro hitems items' hitems' place place' i i' followed followed' u v heq
    cases items' with
    | nil =>
      rw [itemRows, itemRows, List.map_append, List.append_assoc] at heq
      exact absurd heq (rows_head_ne_closing ht (hitems c List.mem_cons_self))
    | cons d items' =>
      rw [itemRows, itemRows, List.map_append, List.map_append, List.append_assoc,
        List.append_assoc] at heq
      obtain ⟨rfl, -, hrest⟩ := h c List.mem_cons_self (hitems c List.mem_cons_self) d
        (hitems' d List.mem_cons_self) _ _ _ _ _ _ heq
      obtain ⟨rfl, hfollowed, huv⟩ := ih (fun e he => h e (List.mem_cons_of_mem c he))
        (fun e he => hitems e (List.mem_cons_of_mem c he)) items'
        (fun e he => hitems' e (List.mem_cons_of_mem c he)) _ _ _ _ _ _ _ _ hrest
      exact ⟨rfl, hfollowed, huv⟩

theorem tells (x : Content) : Tells t x := by
  induction x using Content.induction with
  | leaf shown =>
    intro hx y hy place place' followed followed' u v h
    rw [rows_leaf] at h
    induction y using Content.induction with
    | leaf shown' =>
      rw [rows_leaf] at h
      obtain ⟨hentry, huv⟩ := List.cons.inj h
      obtain ⟨rfl, hfollowed⟩ :=
        entry_injective ht (only_leaf_iff.mp hx) (only_leaf_iff.mp hy) hentry
      exact ⟨rfl, hfollowed, huv⟩
    | array items _ =>
      have hentry := entry_ne_bracket ht place followed followed (only_leaf_iff.mp hx)
      exact absurd (List.cons.inj h).1 hentry.1
  | array items ih =>
    intro hx y hy place place' followed followed' u v h
    induction y using Content.induction with
    | leaf shown =>
      rw [rows_leaf] at h
      have hentry := entry_ne_bracket ht place' followed' followed (only_leaf_iff.mp hy)
      exact absurd (List.cons.inj h).1.symm hentry.1
    | array items' _ =>
      simp only [rows, List.cons_append, List.map_cons, List.map_append, List.append_assoc,
        List.map_nil, List.nil_append] at h
      obtain ⟨rfl, hfollowed, huv⟩ := tells_items ht ih (only_array_iff.mp hx) items'
        (only_array_iff.mp hy) _ _ _ _ _ _ _ _ (List.cons.inj h).2
      exact ⟨rfl, hfollowed, huv⟩

end

theorem not_followed_nil {c : Content} : ¬ c.Followed [] := by
  rintro ⟨outer, i, items, h, -⟩
  exact absurd h.symm (by simp)

theorem followed_array_iff {items : List Content} {j : Nat} {place : List Nat} {c : Content}
    (hc : items[j]? = some c) :
    (array items).Followed (j :: place) ↔
      (place = [] ∧ j + 1 < items.length) ∨ c.Followed place := by
  constructor
  · rintro ⟨_ | ⟨k, outer⟩, i, items', hplace, hat, hi⟩
    · obtain ⟨rfl, rfl⟩ := List.cons.inj hplace
      cases hat
      exact .inl ⟨rfl, hi⟩
    · obtain ⟨rfl, rfl⟩ := List.cons.inj hplace
      rw [at?, hc] at hat
      exact .inr ⟨outer, i, items', rfl, hat, hi⟩
  · rintro (⟨rfl, hj⟩ | ⟨outer, i, items', rfl, hat, hi⟩)
    · exact ⟨[], j, items, rfl, rfl, hj⟩
    · refine ⟨j :: outer, i, items', rfl, ?_, hi⟩
      rw [at?, hc]
      exact hat

def Lists (c : Content) : Prop :=
  ∀ place followed inner shown after, .entry inner shown after ∈ rows place followed c ↔
    ∃ rest, inner = place ++ rest ∧ c.at? rest = some (leaf shown) ∧
      (after = true ↔ (rest = [] ∧ followed = true) ∨ c.Followed rest)

theorem lists_items {items : List Content} (h : ∀ c ∈ items, c.Lists) :
    ∀ place i inner shown after, .entry inner shown after ∈ itemRows place i items ↔
      ∃ j c rest, items[j]? = some c ∧ inner = place ++ (i + j) :: rest ∧
        c.at? rest = some (leaf shown) ∧
        (after = true ↔ (rest = [] ∧ j + 1 < items.length) ∨ c.Followed rest) := by
  induction items with
  | nil =>
    intro place i inner shown after
    simp [itemRows]
  | cons c items ih =>
    intro place i inner shown after
    have hmore : (!items.isEmpty) = true ↔ 0 + 1 < (c :: items).length := by
      cases items <;> simp
    rw [itemRows, List.mem_append, h c List.mem_cons_self, hmore,
      ih fun d hd => h d (List.mem_cons_of_mem c hd)]
    constructor
    · rintro (⟨rest, rfl, hat, hafter⟩ | ⟨j, d, rest, hd, rfl, hat, hafter⟩)
      · exact ⟨0, c, rest, rfl, by simp, hat, hafter⟩
      · refine ⟨j + 1, d, rest, hd, by rw [Nat.add_right_comm, Nat.add_assoc], hat, ?_⟩
        simpa using hafter
    · rintro ⟨_ | j, d, rest, hd, rfl, hat, hafter⟩
      · cases hd
        exact .inl ⟨rest, by simp, hat, hafter⟩
      · refine .inr ⟨j, d, rest, hd, by rw [Nat.add_right_comm, Nat.add_assoc], hat, ?_⟩
        simpa using hafter

theorem at?_leaf_iff {s shown : Option Scalar} {place : List Nat} :
    (leaf s).at? place = some (leaf shown) ↔ place = [] ∧ shown = s := by
  cases place with
  | nil => cases s <;> cases shown <;> simp [at?, leaf, eq_comm]
  | cons i place => cases s <;> simp [at?, leaf]

theorem at?_array_ne_leaf {items : List Content} {shown : Option Scalar} :
    (array items).at? [] ≠ some (leaf shown) := by
  cases shown <;> simp [at?, leaf]

theorem lists (c : Content) : c.Lists := by
  induction c using Content.induction with
  | leaf s =>
    intro place followed inner shown after
    rw [rows_leaf, List.mem_singleton, entry.injEq]
    constructor
    · rintro ⟨rfl, rfl, rfl⟩
      refine ⟨[], by simp, at?_leaf_iff.mpr ⟨rfl, rfl⟩, ?_⟩
      simp [not_followed_nil]
    · rintro ⟨rest, rfl, hat, hafter⟩
      obtain ⟨rfl, rfl⟩ := at?_leaf_iff.mp hat
      refine ⟨List.append_nil place, rfl, Bool.eq_iff_iff.mpr ?_⟩
      simpa [not_followed_nil] using hafter
  | array items ih =>
    intro place followed inner shown after
    rw [rows, List.mem_append, List.mem_cons, List.mem_singleton, lists_items ih]
    constructor
    · rintro ((h | ⟨j, c, rest, hc, rfl, hat, hafter⟩) | h)
      · cases h
      · refine ⟨j :: rest, by rw [Nat.zero_add], by rw [at?, hc]; exact hat, ?_⟩
        rw [hafter, followed_array_iff hc]
        simp
      · cases h
    · rintro ⟨_ | ⟨j, rest⟩, rfl, hat, hafter⟩
      · exact absurd hat at?_array_ne_leaf
      · rw [at?] at hat
        obtain ⟨c, hc, hat⟩ := Option.bind_eq_some_iff.mp hat
        refine .inl (.inr ⟨j, c, rest, hc, by rw [Nat.zero_add], hat, ?_⟩)
        rw [hafter, followed_array_iff hc]
        simp

def Apart (r r' : Row) : Prop :=
  ∀ place shown after shown' after', r = .entry place shown after → r' ≠ .entry place shown' after'

theorem apart_items {items : List Content}
    (h : ∀ c ∈ items, ∀ place followed, (rows place followed c).Pairwise Apart) (place : List Nat)
    (i : Nat) : (itemRows place i items).Pairwise Apart := by
  induction items generalizing i with
  | nil => exact .nil
  | cons c items ih =>
    rw [itemRows]
    refine List.pairwise_append.mpr ⟨h c List.mem_cons_self _ _,
      ih (fun d hd => h d (List.mem_cons_of_mem c hd)) (i + 1), ?_⟩
    rintro r hr r' hr' inner shown after shown' after' rfl rfl
    obtain ⟨rest, hinner, -⟩ := (lists c _ _ _ _ _).mp hr
    obtain ⟨j, d, rest', -, hinner', -⟩ := (lists_items (fun d _ => lists d) _ _ _ _ _).mp hr'
    rw [hinner, List.append_assoc, List.append_cancel_left_eq] at hinner'
    have hi := (List.cons.inj hinner').1
    omega

theorem apart (c : Content) : ∀ place followed, (rows place followed c).Pairwise Apart := by
  induction c using Content.induction with
  | leaf s =>
    intro place followed
    rw [rows_leaf]
    exact List.pairwise_singleton _ _
  | array items ih =>
    intro place followed
    rw [rows, List.cons_append, List.pairwise_cons, List.pairwise_append]
    refine ⟨?_, apart_items ih place 0, List.pairwise_singleton _ _, ?_⟩
    · rintro r - inner shown after shown' after' ⟨⟩
    · intro r _ r' hr' inner shown after shown' after' _ h
      rw [List.mem_singleton.mp hr'] at h
      cases h

theorem mem_elements_of_at? {s : Scalar} {c : Content} {place : List Nat}
    (h : c.at? place = some (leaf (some s))) : s ∈ c.elements := by
  induction c using Content.induction generalizing place with
  | leaf shown =>
    obtain ⟨-, rfl⟩ := at?_leaf_iff.mp h
    simp [leaf, elements]
  | array items ih =>
    cases place with
    | nil => exact absurd h at?_array_ne_leaf
    | cons i place =>
      rw [at?] at h
      obtain ⟨c, hc, hat⟩ := Option.bind_eq_some_iff.mp h
      rw [elements]
      exact List.mem_flatMap.mpr ⟨c, List.mem_of_getElem? hc, ih c (List.mem_of_getElem? hc) hat⟩

theorem newline_notMem_rows {t : ElementType} (ht : t ∈ wideIntegers) {c : Content}
    (hc : c.Only t) {r : Row} (hr : r ∈ rows [] false c) : '\n' ∉ r.text.toList := by
  cases r with
  | opening => decide
  | closing followed => cases followed <;> decide
  | entry place shown followed =>
    obtain ⟨place, rfl, hat, -⟩ := (lists c _ _ _ _ _).mp hr
    have htype : ∀ s, shown = some s → s.type = t := by
      rintro s rfl
      exact hc s (mem_elements_of_at? hat)
    rw [mem_entry_iff ht place followed htype (fun h => h.ne (by simp) rfl) (by decide)]
    exact fun h => absurd h.1 (by decide)

/-- A content whose elements are all integers of one 64-bit type is told by its text.
Each element and each cut has a line of its own: the decimal text or three dots, four
spaces further in for each array around it, and a comma exactly if another item of the
same array follows. All other lines are brackets. -/
theorem text_unambiguous :
    (∀ t ∈ wideIntegers, ∀ x y : Content, x.Only t → y.Only t → x.text = y.text → x = y) ∧
    ∀ t ∈ wideIntegers, ∀ x : Content, x.Only t →
      x.text.toList.splitOn '\n' = (rows [] false x).map (·.text.toList) ∧
      (∀ place shown followed, Row.entry place shown followed ∈ rows [] false x ↔
        x.at? place = some (leaf shown) ∧ (followed = true ↔ x.Followed place)) ∧
      ∀ place shown, x.at? place = some (leaf shown) →
        ∃! k : Nat, ∃ followed, (rows [] false x)[k]? = some (.entry place shown followed) := by
  -- no row holds a newline, so the text gives the rows back
  have hsplit : ∀ t ∈ wideIntegers, ∀ x : Content, x.Only t →
      x.text.toList.splitOn '\n' = (rows [] false x).map (·.text.toList) := by
    intro t ht x hx
    rw [text_eq, String.toList_intercalate, List.map_map]
    refine List.splitOn_intercalate '\n' ?_ (by simp [rows_ne_nil])
    intro l hl
    obtain ⟨r, hr, rfl⟩ := List.mem_map.mp hl
    exact newline_notMem_rows ht hx hr
  refine ⟨fun t ht x y hx hy h => ?_, fun t ht x hx => ⟨hsplit t ht x hx, ?_, ?_⟩⟩
  · have hrows := (hsplit t ht x hx).symm.trans (h ▸ hsplit t ht y hy)
    have htexts : (rows [] false x).map Row.text = (rows [] false y).map Row.text := by
      refine List.map_injective_iff.mpr (fun _ _ => String.toList_inj.mp) ?_
      rw [List.map_map, List.map_map]
      exact hrows
    exact (tells ht x hx y hy [] [] false false [] [] (congrArg (· ++ []) htexts)).1
  · intro place shown followed
    rw [lists x]
    constructor
    · rintro ⟨rest, rfl, hat, hfollowed⟩
      exact ⟨hat, by simpa using hfollowed⟩
    · rintro ⟨hat, hfollowed⟩
      exact ⟨place, rfl, hat, by simpa using hfollowed⟩
  · intro place shown hat
    obtain ⟨followed, hfollowed⟩ : ∃ b : Bool, b = true ↔ x.Followed place := by
      by_cases h : x.Followed place
      · exact ⟨true, by simpa using h⟩
      · exact ⟨false, by simpa using h⟩
    have hmem : Row.entry place shown followed ∈ rows [] false x :=
      (lists x _ _ _ _ _).mpr ⟨place, rfl, hat, by simpa using hfollowed⟩
    obtain ⟨k, hk⟩ := List.mem_iff_getElem?.mp hmem
    refine ⟨k, ⟨followed, hk⟩, ?_⟩
    rintro l ⟨after, hl⟩
    have happart := List.pairwise_iff_getElem.mp (apart x [] false)
    obtain ⟨hk', hkrow⟩ := List.getElem?_eq_some_iff.mp hk
    obtain ⟨hl', hlrow⟩ := List.getElem?_eq_some_iff.mp hl
    rcases Nat.lt_trichotomy l k with h | h | h
    · exact absurd hkrow (happart l k hl' hk' h _ _ _ _ _ hlrow)
    · exact h
    · exact absurd hlrow (happart k l hk' hl' h _ _ _ _ _ hkrow)

/-- A matrix of which one element is shown has seven lines, and two rows of one element
do not read as one row of two. -/
theorem text_unambiguous_matrix :
    (array [.array [.scalar (.int64 0), .cut], .cut]).text.toList.splitOn '\n' =
      ["[", "[", "        0,", "        ...", "],", "    ...", "]"].map String.toList ∧
    (array [.array [.scalar (.uint64 1)], .array [.scalar (.uint64 2)]]).text ≠
      (array [.array [.scalar (.uint64 1), .scalar (.uint64 2)]]).text := by
  refine ⟨?_, fun h => ?_⟩
  · rw [(text_unambiguous.2 .int64 (by decide) (array [.array [.scalar (.int64 0), .cut], .cut])
      (by simp [Only, elements, Scalar.type])).1]
    rfl
  · have hsame := text_unambiguous.1 .uint64 (by decide) _ _
      (by simp [Only, elements, Scalar.type]) (by simp [Only, elements, Scalar.type]) h
    simp at hsame

end Content

end PickledModel.Tensor
