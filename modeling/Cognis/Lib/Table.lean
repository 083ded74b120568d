/-
  Keyed tables as lists of rows: `INSERT .. ON CONFLICT (key) DO UPDATE` and
  `ORDER BY`.

  * `upsert` writes a row, `upsertAll` a list of rows, of which the last of a key
    wins; `Keyed` says that no two rows have the same key;
  * `mem_upsertAll`: a batch of writes replaces the rows of its keys by the table
    the batch alone builds;
  * `mem_build_sortOn`: a stable sort of the batch on its key does not change that
    table, and `mem_build_flatMap`: neither does cutting the batch up by key;
  * `keepBest` keeps a row of the best rank for each key (`exists_mem_keepBest`,
    `mem_keepBest_iff`);
  * `sortOn_eq`: two tables with the same rows read the same in the order of the key;
  * `head?_sortOn`: the first row of that order is the one of the least key.
-/
import Mathlib.Data.List.Induction
import Mathlib.Data.List.Sort
import Mathlib.Data.List.Nodup
import Mathlib.Tactic.Common

namespace Cognis.Table

section Rows
variable {κ ρ : Type*} (key : ρ → κ)

/-- No two rows have the same key. -/
def Keyed (t : List ρ) : Prop := (t.map key).Nodup

instance [DecidableEq κ] (t : List ρ) : Decidable (Keyed key t) :=
  inferInstanceAs (Decidable (t.map key).Nodup)

variable {key} {t : List ρ} {x y : ρ}

theorem keyed_nil : Keyed key ([] : List ρ) := List.nodup_nil

theorem Keyed.filter (h : Keyed key t) (p : ρ → Bool) : Keyed key (t.filter p) :=
  h.sublist (List.filter_sublist.map key)

theorem Keyed.map {f : ρ → ρ} (h : Keyed key t) (hf : ∀ x, key (f x) = key x) :
    Keyed key (t.map f) := by
  unfold Keyed at h ⊢
  rw [List.map_map]
  rwa [show key ∘ f = key from funext hf]

theorem Keyed.eq (h : Keyed key t) (hx : x ∈ t) (hy : y ∈ t) (hk : key x = key y) : x = y :=
  List.inj_on_of_nodup_map h hx hy hk

theorem Keyed.nodup (h : Keyed key t) : t.Nodup := h.of_map key

theorem Keyed.append {t' : List ρ} (h : Keyed key t) (h' : Keyed key t')
    (hne : ∀ x ∈ t, ∀ y ∈ t', key x ≠ key y) : Keyed key (t ++ t') := by
  unfold Keyed
  rw [List.map_append, List.nodup_append]
  refine ⟨h, h', ?_⟩
  intro a ha b hb
  obtain ⟨x, hx, rfl⟩ := List.mem_map.1 ha
  obtain ⟨y, hy, rfl⟩ := List.mem_map.1 hb
  exact hne x hx y hy

theorem Keyed.perm {t' : List ρ} (h : Keyed key t) (h' : Keyed key t')
    (hmem : ∀ x, x ∈ t ↔ x ∈ t') : t.Perm t' :=
  (List.perm_ext_iff_of_nodup h.nodup h'.nodup).2 hmem

end Rows

section Upsert
variable {κ ρ : Type*} [DecidableEq κ] (key : ρ → κ)

/-- Write a row: insert it, or replace the row of its key. -/
def upsert (t : List ρ) (r : ρ) : List ρ := t.filter (fun x => key x ≠ key r) ++ [r]

/-- Write the rows in order. -/
def upsertAll (t rs : List ρ) : List ρ := rs.foldl (upsert key) t

/-- The table that the rows build on their own: the last row of a key wins. -/
def build (rs : List ρ) : List ρ := upsertAll key [] rs

/-- The row of a key. -/
def lookup (t : List ρ) (k : κ) : Option ρ := t.find? (fun x => key x = k)

variable {key} {t rs : List ρ} {r x : ρ} {k : κ}

theorem Keyed.lookup_eq_some (h : Keyed key t) :
    lookup key t k = some x ↔ x ∈ t ∧ key x = k := by
  constructor
  · intro hx
    exact ⟨List.mem_of_find?_eq_some hx, by simpa using List.find?_some hx⟩
  · rintro ⟨hx, rfl⟩
    cases hy : lookup key t (key x) with
    | none =>
      have hne := List.find?_eq_none.1 hy x hx
      simp at hne
    | some y =>
      have hk : key y = key x := by simpa using List.find?_some hy
      rw [h.eq (List.mem_of_find?_eq_some hy) hx hk]

theorem lookup_eq_none : lookup key t k = none ↔ ∀ x ∈ t, key x ≠ k := by
  simp [lookup, List.find?_eq_none]

theorem key_of_lookup (h : lookup key t k = some x) : key x = k := by
  simpa using List.find?_some h

theorem exists_lookup : (∃ x, lookup key t k = some x) ↔ ∃ x ∈ t, key x = k := by
  simp [lookup, ← Option.isSome_iff_exists]

theorem mem_upsert : x ∈ upsert key t r ↔ (x ∈ t ∧ key x ≠ key r) ∨ x = r := by
  simp [upsert]

theorem mem_upsert_self : r ∈ upsert key t r := mem_upsert.2 (.inr rfl)

/-- A row with the key of `y` stays when `y`'s row is written. -/
theorem exists_mem_upsert {y : ρ} (h : y ∈ t) : ∃ x ∈ upsert key t r, key x = key y := by
  by_cases hk : key y = key r
  · exact ⟨r, mem_upsert_self, hk.symm⟩
  · exact ⟨y, mem_upsert.2 (.inl ⟨h, hk⟩), rfl⟩

theorem length_upsert_le : (upsert key t r).length ≤ t.length + 1 := by
  have := List.length_filter_le (fun x => key x ≠ key r) t
  simp only [upsert, List.length_append, List.length_singleton]
  omega

/-- A row is replaced in place. -/
theorem length_upsert_of_mem {y : ρ} (h : y ∈ t) (hk : key y = key r) :
    (upsert key t r).length ≤ t.length := by
  have hlt : (t.filter (fun x => key x ≠ key r)).length < t.length :=
    List.length_filter_lt_length_iff_exists.2 ⟨y, h, by simp [hk]⟩
  simp only [upsert, List.length_append, List.length_singleton]
  omega

theorem keyed_upsert (h : Keyed key t) : Keyed key (upsert key t r) := by
  unfold upsert Keyed
  rw [List.map_append, List.nodup_append]
  refine ⟨h.filter _, List.nodup_singleton _, ?_⟩
  intro a ha b hb hab
  obtain ⟨y, hy, rfl⟩ := List.mem_map.1 ha
  rw [List.map_singleton, List.mem_singleton] at hb
  rw [List.mem_filter] at hy
  exact absurd (hab.trans hb) (by simpa using hy.2)

theorem keyed_upsertAll (h : Keyed key t) : Keyed key (upsertAll key t rs) := by
  unfold upsertAll
  induction rs generalizing t with
  | nil => exact h
  | cons r rs ih => exact ih (keyed_upsert h)

theorem keyed_build : Keyed key (build key rs) := keyed_upsertAll keyed_nil

theorem upsertAll_cons : upsertAll key t (r :: rs) = upsertAll key (upsert key t r) rs := rfl

/-- **A batch of writes** replaces the rows of its keys by the table it builds. -/
theorem mem_upsertAll :
    x ∈ upsertAll key t rs ↔ (x ∈ t ∧ ∀ r ∈ rs, key x ≠ key r) ∨ x ∈ build key rs := by
  induction rs generalizing t with
  | nil => simp [upsertAll, build]
  | cons r rs ih =>
    rw [build, upsertAll_cons, upsertAll_cons, ih, ih (t := upsert key [] r), mem_upsert, mem_upsert]
    simp only [List.mem_cons, forall_eq_or_imp, List.not_mem_nil, false_and, false_or]
    tauto

/-- The rows of other keys, then the table that the batch builds. -/
theorem upsertAll_eq_append :
    upsertAll key t rs = t.filter (fun x => ∀ r ∈ rs, key x ≠ key r) ++ build key rs := by
  have happ : ∀ s t : List ρ, upsertAll key (s ++ t) rs =
      s.filter (fun x => ∀ r ∈ rs, key x ≠ key r) ++ upsertAll key t rs := by
    induction rs with
    | nil =>
      intro s t
      simp [upsertAll]
    | cons r rs ih =>
      intro s t
      have hrow : upsert key (s ++ t) r = s.filter (fun x => key x ≠ key r) ++ upsert key t r := by
        rw [upsert, List.filter_append, List.append_assoc, upsert]
      rw [upsertAll_cons, upsertAll_cons, hrow, ih, List.filter_filter]
      congr 2
      funext x
      simp [Bool.and_comm]
  rw [build, ← happ, List.append_nil]

/-- A batch without two rows of one key is the table it builds. -/
theorem Keyed.build_eq (h : Keyed key rs) : build key rs = rs := by
  induction rs using List.reverseRecOn with
  | nil => rfl
  | append_singleton rs r ih =>
    rw [Keyed, List.map_append, List.nodup_append] at h
    have hfilter : rs.filter (fun x => key x ≠ key r) = rs := by
      rw [List.filter_eq_self]
      intro x hx
      exact decide_eq_true (h.2.2 _ (List.mem_map_of_mem hx) _ (by simp))
    have hrs : upsertAll key [] rs = rs := ih h.1
    rw [build, upsertAll, List.foldl_append]
    change upsert key (upsertAll key [] rs) r = _
    rw [hrs, upsert, hfilter]

/-- Rows of one table are only added. -/
theorem mem_upsertAll_of_keyed {all : List ρ} (h : Keyed key all) (ht : ∀ y ∈ t, y ∈ all)
    (hrs : ∀ y ∈ rs, y ∈ all) : x ∈ upsertAll key t rs ↔ x ∈ t ∨ x ∈ rs := by
  unfold upsertAll
  induction rs generalizing t with
  | nil => simp
  | cons r rs ih =>
    rw [List.forall_mem_cons] at hrs
    have hupsert : ∀ y, y ∈ upsert key t r ↔ y ∈ t ∨ y = r := by
      intro y
      rw [mem_upsert]
      constructor
      · exact Or.imp_left And.left
      · rintro (hy | rfl)
        · by_cases hk : key y = key r
          · exact .inr (h.eq (ht y hy) hrs.1 hk)
          · exact .inl ⟨hy, hk⟩
        · exact .inr rfl
    have hall : ∀ y ∈ upsert key t r, y ∈ all := by
      intro y hy
      rcases (hupsert y).1 hy with hy | rfl
      · exact ht y hy
      · exact hrs.1
    rw [List.foldl_cons, ih hall hrs.2, hupsert, List.mem_cons, or_assoc]

/-- The last row of its key is the one in the table. -/
theorem mem_build :
    x ∈ build key rs ↔ (rs.filter (fun y => key y = key x)).getLast? = some x := by
  induction rs using List.reverseRecOn with
  | nil => simp [build, upsertAll]
  | append_singleton rs r ih =>
    rw [build, upsertAll, List.foldl_append, List.foldl_cons, List.foldl_nil, mem_upsert,
      List.filter_append]
    change (x ∈ build key rs ∧ _) ∨ _ ↔ _
    rw [ih]
    by_cases h : key r = key x
    · simp [h, eq_comm]
    · have hx : x ≠ r := fun e => h (by rw [e])
      simp [h, Ne.symm h, hx]

theorem mem_of_mem_build (h : x ∈ build key rs) : x ∈ rs :=
  (List.mem_filter.1 (List.mem_of_getLast? (mem_build.1 h))).1

/-- Every key of the batch has a row in the table. -/
theorem exists_mem_build (h : r ∈ rs) : ∃ x ∈ build key rs, key x = key r := by
  have hne : rs.filter (fun y => key y = key r) ≠ [] :=
    List.ne_nil_of_mem (List.mem_filter.2 ⟨h, by simp⟩)
  obtain ⟨x, hx⟩ := Option.ne_none_iff_exists'.1 (mt List.getLast?_eq_none_iff.1 hne)
  have hk : key x = key r := by simpa using (List.mem_filter.1 (List.mem_of_getLast? hx)).2
  exact ⟨x, mem_build.2 (by rw [hk]; exact hx), hk⟩

/-- The table of the images of a batch. -/
theorem map_mem_build {ρ' : Type*} {key' : ρ' → κ} {f : ρ → ρ'} (hf : ∀ y, key' (f y) = key y)
    (h : x ∈ build key rs) : f x ∈ build key' (rs.map f) := by
  rw [mem_build] at h ⊢
  rw [List.filter_map, List.getLast?_map]
  simp only [Function.comp_def, hf]
  rw [h]
  rfl

/-- Writing the images is the image of the table. -/
theorem upsertAll_map {ρ' : Type*} {key' : ρ' → κ} {f : ρ → ρ'} (hf : ∀ y, key' (f y) = key y) :
    upsertAll key' (t.map f) (rs.map f) = (upsertAll key t rs).map f := by
  induction rs generalizing t with
  | nil => rfl
  | cons r rs ih =>
    have hrow : upsert key' (t.map f) (f r) = (upsert key t r).map f := by
      simp [upsert, List.filter_map, Function.comp_def, hf]
    rw [List.map_cons, upsertAll_cons, upsertAll_cons, hrow, ih]

/-- A key stays in the table. -/
theorem exists_mem_upsertAll {y : ρ} (h : y ∈ t) : ∃ x ∈ upsertAll key t rs, key x = key y := by
  induction rs generalizing t y with
  | nil => exact ⟨y, h, rfl⟩
  | cons r rs ih =>
    obtain ⟨z, hz, hzy⟩ : ∃ z ∈ upsert key t r, key z = key y := exists_mem_upsert h
    obtain ⟨x, hx, hxz⟩ := ih hz
    exact ⟨x, hx, hxz.trans hzy⟩

/-- A table reads the same as a batch. -/
theorem Keyed.mem_build (h : Keyed key rs) : x ∈ build key rs ↔ x ∈ rs := by
  refine ⟨mem_of_mem_build, fun hx => ?_⟩
  obtain ⟨y, hy, hk⟩ : ∃ y ∈ build key rs, key y = key x := exists_mem_build hx
  rwa [← h.eq (mem_of_mem_build hy) hx hk]

theorem mem_build_append {l l' : List ρ} (h : ∀ a ∈ l, ∀ b ∈ l', key a ≠ key b) :
    x ∈ build key (l ++ l') ↔ x ∈ build key l ∨ x ∈ build key l' := by
  rw [build, upsertAll, List.foldl_append]
  change x ∈ upsertAll key (build key l) l' ↔ _
  rw [mem_upsertAll]
  constructor
  · rintro (⟨hx, -⟩ | hx)
    · exact .inl hx
    · exact .inr hx
  · rintro (hx | hx)
    · exact .inl ⟨hx, h x (mem_of_mem_build hx)⟩
    · exact .inr hx

/-- A batch cut into groups with keys of their own builds the tables of the groups. -/
theorem mem_build_flatMap {ι : Type*} {is : List ι} {g : ι → List ρ} (hnd : is.Nodup)
    (h : ∀ i ∈ is, ∀ j ∈ is, i ≠ j → ∀ a ∈ g i, ∀ b ∈ g j, key a ≠ key b) :
    x ∈ build key (is.flatMap g) ↔ ∃ i ∈ is, x ∈ build key (g i) := by
  induction is with
  | nil => simp [build, upsertAll]
  | cons i is ih =>
    rw [List.nodup_cons] at hnd
    have happ : ∀ a ∈ g i, ∀ b ∈ is.flatMap g, key a ≠ key b := by
      intro a ha b hb
      obtain ⟨j, hj, hb⟩ := List.mem_flatMap.1 hb
      have hij : i ≠ j := fun e => hnd.1 (e ▸ hj)
      exact h i List.mem_cons_self j (List.mem_cons_of_mem _ hj) hij a ha b hb
    rw [List.flatMap_cons, mem_build_append happ, ih hnd.2 fun j hj k hk =>
      h j (List.mem_cons_of_mem _ hj) k (List.mem_cons_of_mem _ hk)]
    simp

end Upsert

section Best
variable {κ ρ β : Type*} [DecidableEq κ] [LinearOrder β] (key : ρ → κ) (rank : ρ → β)

/-- Write a row unless the table has one of its key and at least its rank. -/
def upgrade (t : List ρ) (r : ρ) : List ρ :=
  match lookup key t (key r) with
  | some x => if rank x < rank r then upsert key t r else t
  | none => upsert key t r

/-- The rows of the best rank of each key. -/
def keepBest (rs : List ρ) : List ρ := rs.foldl (upgrade key rank) []

variable {key rank} {t rs : List ρ} {r x : ρ}

theorem keyed_upgrade (h : Keyed key t) : Keyed key (upgrade key rank t r) := by
  unfold upgrade
  split
  · split_ifs
    · exact keyed_upsert h
    · exact h
  · exact keyed_upsert h

theorem mem_of_mem_upgrade (hx : x ∈ upgrade key rank t r) : x ∈ t ∨ x = r := by
  have hupsert : x ∈ upsert key t r → x ∈ t ∨ x = r := fun h => (mem_upsert.1 h).imp And.left id
  unfold upgrade at hx
  split at hx
  · split_ifs at hx
    · exact hupsert hx
    · exact .inl hx
  · exact hupsert hx

/-- After a row, its key has a row of at least its rank, and no key loses rank. -/
theorem exists_mem_upgrade (rank : ρ → β) {y : ρ} (h : Keyed key t) (hy : y ∈ t ∨ y = r) :
    ∃ x ∈ upgrade key rank t r, key x = key y ∧ rank y ≤ rank x := by
  have hupsert : (∀ z ∈ t, key z = key r → rank z ≤ rank r) →
      ∃ x ∈ upsert key t r, key x = key y ∧ rank y ≤ rank x := by
    intro hle
    rcases hy with hy | rfl
    · by_cases hk : key y = key r
      · exact ⟨r, mem_upsert_self, hk.symm, hle y hy hk⟩
      · exact ⟨y, mem_upsert.2 (.inl ⟨hy, hk⟩), rfl, le_rfl⟩
    · exact ⟨y, mem_upsert_self, rfl, le_rfl⟩
  unfold upgrade
  split
  · rename_i z hz
    obtain ⟨hmem, hk⟩ := h.lookup_eq_some.1 hz
    split_ifs with hlt
    · exact hupsert fun w hw hwk => by rw [h.eq hw hmem (hwk.trans hk.symm)]; exact hlt.le
    · rcases hy with hy | rfl
      · exact ⟨y, hy, rfl, le_rfl⟩
      · exact ⟨z, hmem, hk, not_lt.1 hlt⟩
  · rename_i hnone
    exact hupsert fun z hz hk => absurd hk (lookup_eq_none.1 hnone z hz)

theorem keyed_foldl_upgrade (h : Keyed key t) : Keyed key (rs.foldl (upgrade key rank) t) := by
  induction rs generalizing t with
  | nil => exact h
  | cons r rs ih => exact ih (keyed_upgrade h)

theorem keyed_keepBest : Keyed key (keepBest key rank rs) := keyed_foldl_upgrade keyed_nil

theorem mem_of_mem_keepBest (hx : x ∈ keepBest key rank rs) : x ∈ rs := by
  have hfold : ∀ rs t : List ρ, x ∈ rs.foldl (upgrade key rank) t → x ∈ t ∨ x ∈ rs := by
    intro rs
    induction rs with
    | nil => exact fun t h => .inl h
    | cons r rs ih =>
      intro t h
      rcases ih _ h with h | h
      · rcases mem_of_mem_upgrade h with h | rfl
        · exact .inl h
        · exact .inr List.mem_cons_self
      · exact .inr (List.mem_cons_of_mem _ h)
  exact (hfold rs [] hx).resolve_left List.not_mem_nil

/-- **Every row is matched** by a kept row of its key and at least its rank. -/
theorem exists_mem_keepBest (key : ρ → κ) (rank : ρ → β) (hr : r ∈ rs) :
    ∃ x ∈ keepBest key rank rs, key x = key r ∧ rank r ≤ rank x := by
  have hfold : ∀ rs t : List ρ, Keyed key t → ∀ y, y ∈ t ∨ y ∈ rs →
      ∃ x ∈ rs.foldl (upgrade key rank) t, key x = key y ∧ rank y ≤ rank x := by
    intro rs
    induction rs with
    | nil => exact fun t _ y hy => ⟨y, hy.resolve_right List.not_mem_nil, rfl, le_rfl⟩
    | cons r rs ih =>
      intro t ht y hy
      rw [List.mem_cons, ← or_assoc] at hy
      rcases hy with hy | hy
      · obtain ⟨z, hz, hzk, hzr⟩ := exists_mem_upgrade rank ht hy
        obtain ⟨x, hx, hxk, hxr⟩ := ih _ (keyed_upgrade ht) z (.inl hz)
        exact ⟨x, hx, hxk.trans hzk, hzr.trans hxr⟩
      · exact ih _ (keyed_upgrade ht) y (.inr hy)
  exact hfold rs [] keyed_nil r (.inr hr)

/-- The rows of a set that have the best rank of their key. -/
def Best (key : ρ → κ) (rank : ρ → β) (P : ρ → Prop) (x : ρ) : Prop :=
  P x ∧ ∀ y, P y → key y = key x → rank y ≤ rank x

/-- **The kept rows are the best of a set**, when the rows are of the set and match it, and a
    row of the set is known by its key and its rank. -/
theorem mem_keepBest_iff {P : ρ → Prop} (hsub : ∀ y ∈ rs, P y)
    (hmatch : ∀ y, P y → ∃ z ∈ rs, key z = key y ∧ rank y ≤ rank z)
    (hdet : ∀ y z, P y → P z → key y = key z → rank y = rank z → y = z) :
    x ∈ keepBest key rank rs ↔ Best key rank P x := by
  have hkept : ∀ y, P y → ∃ z ∈ keepBest key rank rs, key z = key y ∧ rank y ≤ rank z := by
    intro y hy
    obtain ⟨w, hw, hwy, hle⟩ := hmatch y hy
    obtain ⟨z, hz, hzw, hle'⟩ := exists_mem_keepBest key rank hw
    exact ⟨z, hz, hzw.trans hwy, hle.trans hle'⟩
  constructor
  · intro hx
    refine ⟨hsub x (mem_of_mem_keepBest hx), fun y hy hyx => ?_⟩
    obtain ⟨z, hz, hzy, hle⟩ := hkept y hy
    rwa [keyed_keepBest.eq hz hx (hzy.trans hyx)] at hle
  · rintro ⟨hx, hbest⟩
    obtain ⟨z, hz, hzx, hle⟩ := hkept x hx
    have hzP := hsub z (mem_of_mem_keepBest hz)
    rwa [hdet x z hx hzP hzx.symm (le_antisymm hle (hbest z hzP hzx))]

end Best

section Order
variable {κ ρ : Type*} [LinearOrder κ] (key : ρ → κ)

/-- `ORDER BY key`: a stable sort. -/
def sortOn (l : List ρ) : List ρ := l.insertionSort (fun a b => key a ≤ key b)

variable {key} {l l' : List ρ} {x : ρ}

theorem sortOn_perm : (sortOn key l).Perm l := List.perm_insertionSort _ l

@[simp] theorem mem_sortOn : x ∈ sortOn key l ↔ x ∈ l := sortOn_perm.mem_iff

theorem sorted_sortOn : (sortOn key l).Pairwise (fun a b => key a ≤ key b) := by
  have : Std.Total (fun a b : ρ => key a ≤ key b) := ⟨fun a b => le_total _ _⟩
  have : IsTrans ρ (fun a b => key a ≤ key b) := ⟨fun _ _ _ => le_trans⟩
  exact List.pairwise_insertionSort _ l

/-- The sort is stable: the rows of one key keep their order. -/
theorem filter_sortOn (k : κ) :
    (sortOn key l).filter (fun y => key y = k) = l.filter (fun y => key y = k) := by
  have : Std.Total (fun a b : ρ => key a ≤ key b) := ⟨fun a b => le_total _ _⟩
  have : IsTrans ρ (fun a b => key a ≤ key b) := ⟨fun _ _ _ => le_trans⟩
  have hr : (l.filter (fun y => key y = k)).Pairwise (fun a b => key a ≤ key b) := by
    refine List.pairwise_of_forall_mem_list fun a ha b hb => ?_
    simp only [List.mem_filter, decide_eq_true_eq] at ha hb
    exact (ha.2.trans hb.2.symm).le
  have hs := (List.sublist_insertionSort hr List.filter_sublist).filter (fun y => key y = k)
  simp only [List.filter_filter, Bool.and_self] at hs
  exact (hs.eq_of_length (sortOn_perm.filter _).length_eq.symm).symm

/-- A batch builds the same table sorted. -/
theorem mem_build_sortOn : x ∈ build key (sortOn key l) ↔ x ∈ build key l := by
  rw [mem_build, mem_build, filter_sortOn]

theorem Keyed.sortOn (h : Keyed key l) : Keyed key (sortOn key l) :=
  (sortOn_perm.map key).nodup_iff.2 h

/-- **Two tables with the same rows read the same** in the order of the key. -/
theorem sortOn_eq (h : Keyed key l) (hp : l.Perm l') : Table.sortOn key l = Table.sortOn key l' := by
  refine (sortOn_perm.trans (hp.trans sortOn_perm.symm)).eq_of_pairwise ?_ sorted_sortOn sorted_sortOn
  intro a b ha hb hab hba
  exact h.eq (mem_sortOn.1 ha) (hp.mem_iff.2 (mem_sortOn.1 hb)) (le_antisymm hab hba)

/-- Rows are chosen before or after the sort. -/
theorem sortOn_filter (h : Keyed key l) (p : ρ → Bool) :
    (Table.sortOn key l).filter p = Table.sortOn key (l.filter p) := by
  refine ((sortOn_perm.filter p).trans sortOn_perm.symm).eq_of_pairwise ?_
    (sorted_sortOn.filter p) sorted_sortOn
  intro a b ha hb hab hba
  exact h.eq (mem_sortOn.1 (List.mem_filter.1 ha).1)
    (List.mem_filter.1 (mem_sortOn.1 hb)).1 (le_antisymm hab hba)

/-- `ORDER BY key LIMIT 1`: the row of the least key. -/
theorem head?_sortOn (h : Keyed key l) :
    (Table.sortOn key l).head? = some x ↔ x ∈ l ∧ ∀ y ∈ l, key x ≤ key y := by
  have hleast : ∀ z, (Table.sortOn key l).head? = some z → z ∈ l ∧ ∀ y ∈ l, key z ≤ key y := by
    intro z hz
    obtain ⟨rest, hrest⟩ := List.head?_eq_some_iff.1 hz
    have hsorted : (sortOn key l).Pairwise (fun a b => key a ≤ key b) := sorted_sortOn
    rw [hrest, List.pairwise_cons] at hsorted
    refine ⟨mem_sortOn.1 (hrest ▸ List.mem_cons_self : z ∈ Table.sortOn key l), fun y hy => ?_⟩
    have hmem : y ∈ z :: rest := hrest ▸ mem_sortOn.2 hy
    rcases List.mem_cons.1 hmem with rfl | hmem
    · exact le_rfl
    · exact hsorted.1 y hmem
  refine ⟨hleast x, fun hx => ?_⟩
  cases hz : (Table.sortOn key l).head? with
  | none =>
    rw [List.head?_eq_none_iff] at hz
    have hmem : x ∈ sortOn key l := mem_sortOn.2 hx.1
    rw [hz] at hmem
    cases hmem
  | some z =>
    obtain ⟨hmem, hle⟩ := hleast z hz
    rw [h.eq hmem hx.1 (le_antisymm (hle x hx.1) (hx.2 z hmem))]

end Order

end Cognis.Table
