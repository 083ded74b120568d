/-
  Call graphs that differ in the numbering of the symbols and in the order of the
  calls (`complexity.rs`).

  The costs of `analyze_workspace_complexity` depend on these in two ways: a component
  takes the first change of the arguments it meets, and `seq_max` keeps its left side
  when two classes have the same effective degree.

  * `Relabels`: the same call graph under other numbers;
  * `Relabels.scc_perm`: the components are the same, in whatever order they are found;
  * `Unambiguous`: no such choice decides the costs of a component;
  * `Relabels.costs_eq`: then the costs are the same.
-/
import Cognis.Indexer.Costs

namespace Cognis

open Champion Relation

namespace Workspace

theorem any_self_iff {ws : Workspace} {u : ℕ} :
    (ws.calls u).any (·.1 == u) = true ↔ Arc ws.calls u u := by
  simp [Arc]

/-- `ws'` has the symbols of `ws` under the numbers `τ`, with the same bodies and the
    same calls in some order. -/
structure Relabels (ws ws' : Workspace) (τ : ℕ → ℕ) : Prop where
  lt : ∀ u < ws.symbols.length, τ u < ws'.symbols.length
  inj : ∀ u < ws.symbols.length, ∀ v < ws.symbols.length, τ u = τ v → u = v
  ast : ∀ u < ws.symbols.length, ws'.ast (τ u) = ws.ast u
  calls : ∀ u < ws.symbols.length,
    (ws'.calls (τ u)).Perm ((ws.calls u).map (Prod.map τ id))

variable {ws ws' : Workspace} {τ : ℕ → ℕ}

namespace Relabels

/-! ## The components -/

theorem arc (h : Relabels ws ws' τ) {u v : ℕ} (hu : u < ws.symbols.length)
    (huv : Arc ws.calls u v) : Arc ws'.calls (τ u) (τ v) := by
  obtain ⟨call, hcall, rfl⟩ := huv
  exact ⟨Prod.map τ id call, (h.calls u hu).mem_iff.2 (List.mem_map_of_mem hcall), rfl⟩

theorem exists_arc (h : Relabels ws ws' τ) {u v' : ℕ} (hu : u < ws.symbols.length)
    (huv : Arc ws'.calls (τ u) v') : ∃ v, τ v = v' ∧ Arc ws.calls u v := by
  obtain ⟨call', hcall', rfl⟩ := huv
  obtain ⟨call, hcall, rfl⟩ := List.mem_map.1 ((h.calls u hu).mem_iff.1 hcall')
  exact ⟨call.1, rfl, call, hcall, rfl⟩

theorem reach_lt {u v : ℕ} (hu : u < ws.symbols.length)
    (huv : ReflTransGen (Arc ws.calls) u v) : v < ws.symbols.length := by
  induction huv with
  | refl => exact hu
  | tail _ harc _ => exact calls_lt _ _ harc

theorem reach (h : Relabels ws ws' τ) {u v : ℕ} (hu : u < ws.symbols.length)
    (huv : ReflTransGen (Arc ws.calls) u v) : ReflTransGen (Arc ws'.calls) (τ u) (τ v) := by
  induction huv with
  | refl => exact .refl
  | tail huw harc ih => exact ih.tail (h.arc (reach_lt hu huw) harc)

theorem exists_reach (h : Relabels ws ws' τ) {u v' : ℕ} (hu : u < ws.symbols.length)
    (huv : ReflTransGen (Arc ws'.calls) (τ u) v') :
    ∃ v, τ v = v' ∧ ReflTransGen (Arc ws.calls) u v := by
  induction huv with
  | refl => exact ⟨u, rfl, .refl⟩
  | tail _ harc ih =>
    obtain ⟨w, rfl, huw⟩ := ih
    obtain ⟨v, rfl, hwv⟩ := h.exists_arc (reach_lt hu huw) harc
    exact ⟨v, rfl, huw.tail hwv⟩

theorem reach_iff (h : Relabels ws ws' τ) {u v : ℕ} (hu : u < ws.symbols.length)
    (hv : v < ws.symbols.length) :
    ReflTransGen (Arc ws'.calls) (τ u) (τ v) ↔ ReflTransGen (Arc ws.calls) u v := by
  refine ⟨fun huv => ?_, h.reach hu⟩
  obtain ⟨w, hw, huw⟩ := h.exists_reach hu huv
  rwa [← h.inj w (reach_lt hu huw) v hv hw]

theorem lt_of_mem {scc : List ℕ} (hscc : scc ∈ ws.sccs) {u : ℕ} (hu : u ∈ scc) :
    u < ws.symbols.length :=
  mem_sccs.1 (List.mem_flatten.2 ⟨scc, hscc, hu⟩)

/-- **The components correspond**: `tarjan_scc` finds the same sets of symbols. -/
theorem scc_perm (h : Relabels ws ws' τ) {scc scc' : List ℕ} (hscc : scc ∈ ws.sccs)
    (hscc' : scc' ∈ ws'.sccs) {u : ℕ} (hu : u ∈ scc) (hu' : τ u ∈ scc') :
    scc'.Perm (scc.map τ) := by
  have hlt := fun v (hv : v ∈ scc) => lt_of_mem hscc hv
  have hnodup : scc.Nodup := (List.nodup_flatten.1 (sccs_condensed ws).nodup).1 scc hscc
  have hnodup' : scc'.Nodup := (List.nodup_flatten.1 (sccs_condensed ws').nodup).1 scc' hscc'
  have hmap : (scc.map τ).Nodup :=
    hnodup.map_on fun v hv w hw hvw => h.inj v (hlt v hv) w (hlt w hw) hvw
  refine (List.perm_ext_iff_of_nodup hnodup' hmap).2 fun v' => ?_
  rw [(sccs_condensed ws').mem_iff_reach hscc' hu', List.mem_map]
  constructor
  · rintro ⟨huv, hvu⟩
    obtain ⟨v, rfl, hreach⟩ := h.exists_reach (hlt u hu) huv
    have hv := reach_lt (hlt u hu) hreach
    exact ⟨v, ((sccs_condensed ws).mem_iff_reach hscc hu).2
      ⟨hreach, (h.reach_iff hv (hlt u hu)).1 hvu⟩, rfl⟩
  · rintro ⟨v, hv, rfl⟩
    obtain ⟨huv, hvu⟩ := ((sccs_condensed ws).mem_iff_reach hscc hu).1 hv
    exact ⟨h.reach (hlt u hu) huv, h.reach (hlt v hv) hvu⟩

/-! ## One component -/

section
variable {scc scc' : List ℕ} (h : Relabels ws ws' τ) (hscc : scc ∈ ws.sccs)
  (hp : scc'.Perm (scc.map τ))
include h hscc hp

theorem mem_iff {v : ℕ} (hv : v < ws.symbols.length) : τ v ∈ scc' ↔ v ∈ scc := by
  rw [hp.mem_iff, List.mem_map]
  constructor
  · rintro ⟨w, hw, hwv⟩
    rwa [← h.inj w (lt_of_mem hscc hw) v hv hwv]
  · exact fun hmem => ⟨v, hmem, rfl⟩

theorem callsInto_perm {u : ℕ} (hu : u < ws.symbols.length) :
    (ws'.callsInto scc' (τ u)).Perm (ws.callsInto scc u) := by
  unfold callsInto
  refine (((h.calls u hu).filter _).map Prod.snd).trans (.of_eq ?_)
  rw [List.filter_map, List.map_map]
  have hfilter : (ws.calls u).filter ((fun call => decide (call.1 ∈ scc')) ∘ Prod.map τ id) =
      (ws.calls u).filter fun call => decide (call.1 ∈ scc) := by
    refine List.filter_congr fun call hcall => ?_
    simpa using h.mem_iff hscc hp (calls_lt u call.1 ⟨call, hcall, rfl⟩)
  rw [hfilter]
  rfl

theorem outsideCalls_perm {u : ℕ} (hu : u < ws.symbols.length) :
    (ws'.outsideCalls scc' (τ u)).Perm ((ws.outsideCalls scc u).map (Prod.map τ id)) := by
  unfold outsideCalls
  refine ((h.calls u hu).filter _).trans (.of_eq ?_)
  rw [List.filter_map]
  congr 1
  refine List.filter_congr fun call hcall => ?_
  simpa using h.mem_iff hscc hp (calls_lt u call.1 ⟨call, hcall, rfl⟩)

theorem internalCalls_perm : (ws'.internalCalls scc').Perm (ws.internalCalls scc) := by
  unfold internalCalls
  refine (hp.flatMap_right _).trans ?_
  rw [List.flatMap_map]
  exact List.Perm.flatMap_left _ fun u hu => h.callsInto_perm hscc hp (lt_of_mem hscc hu)

theorem isRecursiveScc_eq : ws'.isRecursiveScc scc' = ws.isRecursiveScc scc := by
  have hlen : scc'.length = scc.length := by rw [hp.length_eq, List.length_map]
  unfold isRecursiveScc
  rw [hlen]
  rcases eq_or_ne scc.length 1 with hone | hone
  · obtain ⟨u, rfl⟩ := List.length_eq_one_iff.1 hone
    have hu := lt_of_mem hscc (List.mem_singleton_self u)
    rw [List.map_singleton] at hp
    obtain rfl := List.perm_singleton.1 hp
    have hany : (ws'.calls (τ u)).any (·.1 == τ u) = (ws.calls u).any (·.1 == u) := by
      rw [Bool.eq_iff_iff, any_self_iff, any_self_iff]
      refine ⟨fun harc => ?_, h.arc hu⟩
      obtain ⟨v, hv, huv⟩ := h.exists_arc hu harc
      rw [h.inj v (calls_lt u v huv) u hu hv] at huv
      exact huv
    simp only [List.headD_cons, hany]
  · simp [hone]

theorem bodies_perm : (scc'.map ws'.ast).Perm (scc.map ws.ast) := by
  refine (hp.map _).trans (.of_eq ?_)
  rw [List.map_map]
  exact List.map_congr_left fun u hu => h.ast u (lt_of_mem hscc hu)

end

end Relabels

/-! ## The choices of a component -/

/-- The class of a component is exponential, whatever its bodies do. -/
def branches (ws : Workspace) (scc : List ℕ) : Bool :=
  let r := ws.recurrence scc
  !r.anyMemo && (2 ≤ r.totalBranchCalls || 0 < r.maxLoopInCycle) && r.reduction != .halving

/-- No order of the members or of their calls decides the class of a component: the
    calls inside it that change the arguments change them alike, and its most expensive
    bodies, where they count, are of one class. -/
structure RecursionDecided (ws : Workspace) (scc : List ℕ) : Prop where
  reduction : Decided ArgReduction.present .none
    ((ws.internalCalls scc).map (·.argReduction))
  localWork : ws.branches scc = true ∨
    Decided ComplexityClass.degreeCode .constant (scc.map fun u => (ws.ast u).localTime)

/-- No order of the symbols or of the calls decides the costs of a component, `p` being
    the tables when it is solved: nor of the calls of a member that leave it, the most
    expensive being of one class when they exceed the member's own. -/
structure Unambiguous (ws : Workspace) (p : Propagation) (scc : List ℕ) : Prop extends
    RecursionDecided ws scc where
  time : ∀ u ∈ scc, Decided ComplexityClass.degreeCode
    (seqMaxBoth (ws.baseCosts scc) (ws.localCosts u)).1
    ((ws.outsideCalls scc u).map fun call => (inducedCosts p.costs call).1)
  space : ∀ u ∈ scc, Decided ComplexityClass.degreeCode
    (seqMaxBoth (ws.baseCosts scc) (ws.localCosts u)).2
    ((ws.outsideCalls scc u).map fun call => (inducedCosts p.costs call).2)

instance (ws : Workspace) (p : Propagation) (scc : List ℕ) : Decidable (ws.Unambiguous p scc) :=
  decidable_of_iff (Decided _ _ _ ∧ (_ ∨ Decided _ _ _) ∧ (∀ u ∈ scc, Decided _ _ _) ∧
      ∀ u ∈ scc, Decided _ _ _)
    ⟨fun ⟨h₁, h₂, h₃, h₄⟩ => ⟨⟨h₁, h₂⟩, h₃, h₄⟩,
      fun h => ⟨h.reduction, h.localWork, h.time, h.space⟩⟩

instance : RightCommutative satAdd16 where
  right_comm a b c := by
    have ha := a.toNat_lt
    have hb := b.toNat_lt
    have hc := c.toNat_lt
    apply UInt16.toNat_inj.1
    simp only [satAdd16, UInt16.toNat_ofNat']
    omega

instance : RightCommutative (max : UInt8 → UInt8 → UInt8) where
  right_comm a b c := by
    apply UInt8.toNat_inj.1
    simp only [toNat_max]
    omega

namespace Relabels

section
variable {scc scc' : List ℕ} (h : Relabels ws ws' τ) (hscc : scc ∈ ws.sccs)
  (hp : scc'.Perm (scc.map τ))
include h hscc hp

/-- What the order cannot change of a recurrence. -/
theorem recurrence_counts :
    (ws'.recurrence scc').totalBranchCalls = (ws.recurrence scc).totalBranchCalls ∧
    (ws'.recurrence scc').maxLoopInCycle = (ws.recurrence scc).maxLoopInCycle ∧
    (ws'.recurrence scc').anyMemo = (ws.recurrence scc).anyMemo := by
  have hcalls := h.internalCalls_perm hscc hp
  have hbodies := h.bodies_perm hscc hp
  simp only [recurrence_eq]
  refine ⟨(hcalls.map _).foldl_eq _, (hcalls.map _).foldl_eq _, ?_⟩
  have hany := hbodies.any_eq (f := (·.hasMemoization))
  rw [List.any_map, List.any_map] at hany
  exact congrArg (false || ·) hany

theorem reduction_eq (hred : Decided ArgReduction.present .none
    ((ws.internalCalls scc).map (·.argReduction))) :
    (ws'.recurrence scc').reduction = (ws.recurrence scc).reduction := by
  simp only [recurrence_eq]
  exact hred.foldl_eq fun r => ((h.internalCalls_perm hscc hp).map _).mem_iff

theorem localWork_eq (hwork : Decided ComplexityClass.degreeCode .constant
    (scc.map fun u => (ws.ast u).localTime)) :
    (ws'.recurrence scc').localWork = (ws.recurrence scc).localWork := by
  have hbodies := (h.bodies_perm hscc hp).map (·.localTime)
  rw [List.map_map, List.map_map] at hbodies
  simp only [recurrence_eq, Recurrence.addCalls, Recurrence.addBodies,
    ComplexityClass.seqMax_eq_pick]
  exact hwork.foldl_eq fun c => hbodies.mem_iff

/-- **The class of a component.** -/
theorem baseCosts_eq (hrec : ws.RecursionDecided scc) :
    ws'.baseCosts scc' = ws.baseCosts scc := by
  obtain ⟨htotal, hloop, hmemo⟩ := h.recurrence_counts hscc hp
  have hred := h.reduction_eq hscc hp hrec.reduction
  have hspace : ws'.sccSpace scc' = ws.sccSpace scc := by
    unfold sccSpace
    rw [hred]
  have htime : ws'.sccTime scc' = ws.sccTime scc := by
    unfold sccTime
    simp only [htotal, hloop, hmemo, hred]
    rcases hrec.localWork with hbranch | hwork
    · -- the local work is not used
      simp only [branches, Bool.and_eq_true, bne_iff_ne, ne_eq] at hbranch
      rw [if_pos (by simpa using hbranch.1), if_pos (by simpa using hbranch.1)]
      cases hr : (ws.recurrence scc).reduction with
      | halving => exact absurd hr hbranch.2
      | none | decrement => rfl
    · rw [h.localWork_eq hscc hp hwork]
  unfold baseCosts
  rw [h.isRecursiveScc_eq hscc hp, hspace, htime]

end

/-- **The costs do not depend on the numbering**, nor on the order of the calls, when no
    component is ambiguous. -/
theorem costs_eq (h : Relabels ws ws' τ) (hun : ∀ done scc rest, ws.sccs = done ++ scc :: rest →
    ws.Unambiguous (ws.propagate done) scc) {u : ℕ} (hu : u < ws.symbols.length) :
    ws'.costs (τ u) = ws.costs u := by
  suffices hdone : ∀ done rest, ws.sccs = done ++ rest → ∀ u ∈ done.flatten,
      ws'.costs (τ u) = ws.costs u from hdone ws.sccs [] (by simp) u (mem_sccs.2 hu)
  intro done
  induction done using List.reverseRecOn with
  | nil => simp
  | append_singleton done scc ih =>
    intro rest hsccs u hmem
    rw [List.append_assoc, List.singleton_append] at hsccs
    rw [List.flatten_append, List.flatten_singleton, List.mem_append] at hmem
    rcases hmem with hmem | hmem
    · exact ih _ hsccs u hmem
    have hscc : scc ∈ ws.sccs := by simp [hsccs]
    have hu := lt_of_mem hscc hmem
    have hun := hun done scc rest hsccs
    -- the component of `u` under its new number
    obtain ⟨scc', hscc', hmem'⟩ := List.mem_flatten.1 (mem_sccs.2 (h.lt u hu))
    obtain ⟨done', rest', hsccs'⟩ := List.append_of_mem hscc'
    have hp := h.scc_perm hscc hscc' hmem hmem'
    have hlocal : ws'.localCosts (τ u) = ws.localCosts u := by
      unfold localCosts
      rw [h.ast u hu]
    -- its callees have got the same costs
    have hinduced : (ws.outsideCalls scc u).map (inducedCosts ws.costs) =
        (ws.outsideCalls scc u).map (inducedCosts (ws.propagate done).costs) :=
      List.map_congr_left fun call hcall => by
        unfold inducedCosts
        rw [costs_of_done hsccs (done_of_outside hsccs hmem hcall).2]
    have hinduced' : ((ws'.outsideCalls scc' (τ u)).map (inducedCosts ws'.costs)).Perm
        ((ws.outsideCalls scc u).map (inducedCosts (ws.propagate done).costs)) := by
      refine ((h.outsideCalls_perm hscc hp hu).map _).trans (.of_eq ?_)
      rw [← hinduced, List.map_map]
      refine List.map_congr_left fun call hcall => ?_
      have hcallee := ih _ hsccs call.1 (done_of_outside hsccs hmem hcall).2
      simp only [Function.comp_apply, inducedCosts, Prod.map_fst, Prod.map_snd, id_eq, hcallee]
    have hpart : ∀ π, Part π → Decided ComplexityClass.degreeCode
        (π (seqMaxBoth (ws.baseCosts scc) (ws.localCosts u)))
        (((ws.outsideCalls scc u).map (inducedCosts (ws.propagate done).costs)).map π) →
        π (ws'.costs (τ u)) = π (ws.costs u) := fun π hπ hdec => by
      rw [Workspace.costs_eq hsccs' hmem', Workspace.costs_eq hsccs hmem,
        h.baseCosts_eq hscc hp hun.toRecursionDecided, hlocal, hinduced, hπ.foldl, hπ.foldl]
      exact hdec.foldl_eq fun c => (hinduced'.map π).mem_iff
    have htime := hun.time u hmem
    have hspace := hun.space u hmem
    rw [← Function.comp_def, ← List.map_map] at htime hspace
    exact Prod.ext (hpart _ (.inl rfl) htime) (hpart _ (.inr rfl) hspace)

end Relabels

end Workspace

end Cognis
