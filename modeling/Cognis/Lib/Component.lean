/-
  Strongly connected components listed callees first: a list of disjoint classes
  of mutually reachable nodes in which every edge leads into the class of its
  source or into an earlier one (`Condensed`), and which together hold the nodes
  (`Components`).
-/
import Mathlib.Data.List.Nodup
import Mathlib.Logic.Relation
import Mathlib.Order.Defs.PartialOrder
import Mathlib.Tactic.Tauto

namespace Cognis

open Relation

variable {α : Type*} {E : α → α → Prop}

/-- The classes of `cs` are disjoint, each is strongly connected, and no edge
    leaves a class for a later one. -/
structure Condensed (E : α → α → Prop) (cs : List (List α)) : Prop where
  nodup : cs.flatten.Nodup
  connected : ∀ c ∈ cs, ∀ u ∈ c, ∀ v ∈ c, ReflTransGen E u v
  closed : ∀ pre c post, cs = pre ++ c :: post → ∀ u ∈ c, ∀ v, E u v → v ∈ c ∨ v ∈ pre.flatten

namespace Condensed

theorem nil : Condensed E [] where
  nodup := .nil
  connected c hc := by cases hc
  closed pre c post h := by simp at h

theorem snoc {cs : List (List α)} {c : List α} (h : Condensed E cs) (hc : c.Nodup)
    (hdisj : ∀ v ∈ c, v ∉ cs.flatten) (hconn : ∀ u ∈ c, ∀ v ∈ c, ReflTransGen E u v)
    (hclosed : ∀ u ∈ c, ∀ v, E u v → v ∈ c ∨ v ∈ cs.flatten) : Condensed E (cs ++ [c]) where
  nodup := by
    rw [List.flatten_append, List.flatten_singleton]
    exact List.nodup_append'.2 ⟨h.nodup, hc, fun v hv hvc => hdisj v hvc hv⟩
  connected d hd := by
    rcases List.mem_append.1 hd with hd | hd
    · exact h.connected d hd
    · rw [List.mem_singleton.1 hd]
      exact hconn
  closed pre d post heq := by
    rcases List.eq_nil_or_concat post with rfl | ⟨post, e, rfl⟩
    · obtain ⟨rfl, hd⟩ := List.append_inj' heq rfl
      cases hd
      exact hclosed
    · have heq' : cs ++ [c] = (pre ++ d :: post) ++ [e] := by simpa using heq
      exact h.closed pre d post (List.append_inj' heq' rfl).1

/-- No path leads from the classes up to a class into a later one. -/
theorem mem_of_reach {cs pre post : List (List α)} {c : List α} (h : Condensed E cs)
    (hcs : cs = pre ++ c :: post) {u v : α} (hu : u ∈ c ∨ u ∈ pre.flatten)
    (huv : ReflTransGen E u v) : v ∈ c ∨ v ∈ pre.flatten := by
  induction huv with
  | refl => exact hu
  | @tail v w _ hvw ih =>
    rcases ih with hv | hv
    · exact h.closed pre c post hcs v hv w hvw
    · obtain ⟨d, hd, hvd⟩ := List.mem_flatten.1 hv
      obtain ⟨pre', post', rfl⟩ := List.append_of_mem hd
      have hw := h.closed pre' d (post' ++ c :: post) (by simp [hcs]) v hvd w hvw
      right
      rw [List.flatten_append, List.mem_append, List.flatten_cons, List.mem_append]
      tauto

/-- **The class of a node** is what it reaches and what reaches it. -/
theorem mem_iff_reach {cs : List (List α)} {c : List α} (h : Condensed E cs) (hc : c ∈ cs) {u v : α}
    (hu : u ∈ c) : v ∈ c ↔ ReflTransGen E u v ∧ ReflTransGen E v u := by
  constructor
  · exact fun hv => ⟨h.connected c hc u hu v hv, h.connected c hc v hv u hu⟩
  · rintro ⟨huv, hvu⟩
    obtain ⟨pre, post, hcs⟩ := List.append_of_mem hc
    refine (h.mem_of_reach hcs (.inl hu) huv).resolve_right fun hv => ?_
    -- a node of an earlier class does not reach `u`
    obtain ⟨d, hd, hvd⟩ := List.mem_flatten.1 hv
    obtain ⟨pre', post', rfl⟩ := List.append_of_mem hd
    have hcs' : cs = pre' ++ d :: (post' ++ c :: post) := by simp [hcs]
    have hup := h.mem_of_reach hcs' (.inl hvd) hvu
    have hnodup := h.nodup
    rw [hcs, List.flatten_append, List.flatten_cons] at hnodup
    refine (List.nodup_append.1 hnodup).2.2 u ?_ u (List.mem_append_left _ hu) rfl
    rw [List.flatten_append, List.flatten_cons, List.mem_append, List.mem_append]
    exact hup.elim (fun h => .inr (.inl h)) .inl

/-- An edge between two classes leads into an earlier one. -/
theorem edge_earlier {cs pre post : List (List α)} {c : List α} (h : Condensed E cs)
    (hcs : cs = pre ++ c :: post) {u v : α} (hu : u ∈ c) (huv : E u v) (hv : v ∉ c) :
    ∃ d ∈ pre, v ∈ d :=
  List.mem_flatten.1 ((h.closed pre c post hcs u hu v huv).resolve_left hv)

end Condensed

/-- The classes of mutual reachability of some nodes, each class after those that its edges
    lead into. -/
structure Components (E : α → α → Prop) (nodes : Set α) (cs : List (List α)) : Prop where
  nodup : cs.flatten.Nodup
  nonempty : ∀ c ∈ cs, c ≠ []
  cover : ∀ v, v ∈ cs.flatten ↔ v ∈ nodes
  classes : ∀ c ∈ cs, ∀ u ∈ c, ∀ v, v ∈ c ↔ ReflTransGen E u v ∧ ReflTransGen E v u
  order : ∀ pre c post, cs = pre ++ c :: post → ∀ u ∈ c, ∀ v, E u v → v ∉ c → ∃ d ∈ pre, v ∈ d

theorem Condensed.components {cs : List (List α)} {nodes : Set α} (h : Condensed E cs)
    (hne : ∀ c ∈ cs, c ≠ []) (hcover : ∀ v, v ∈ cs.flatten ↔ v ∈ nodes) : Components E nodes cs where
  nodup := h.nodup
  nonempty := hne
  cover := hcover
  classes _ hc _ hu _ := h.mem_iff_reach hc hu
  order _ _ _ hcs _ hu _ huv hv := h.edge_earlier hcs hu huv hv

/-- What no edge increases, no path increases. -/
theorem le_of_reach {β : Type*} [Preorder β] {f : α → β} (hf : ∀ u v, E u v → f v ≤ f u) {u v : α}
    (h : ReflTransGen E u v) : f v ≤ f u := by
  induction h with
  | refl => exact le_rfl
  | tail _ hedge ih => exact le_trans (hf _ _ hedge) ih

end Cognis
