import Circom.Algebra.Proofs.Offset
import Circom.ConstraintList.CustomGates
import Circom.ConstraintList.Proofs.Equivalence
import Circom.ConstraintWriters.Proofs.RoundTrip

/-!
# What the R1CS file says

The constraints in the file of a simplified constraint list are those that the simplification leaves, with wires for
signals. All coefficients are elements of the field, so that they are read back as they are.
-/

namespace Circom.ConstraintList

open Circom.Algebra (ArithmeticExpression Constraint)
open Circom.Algebra.SimplificationUtils
open Circom.Lib (HashMap HashOrder Yields yields_foldlM yields_mapM yields_none yields_some yields_true)

variable {p : ℕ}
variable {c : C} {renamed symbols : HashMap ℕ ℤ} {l : List C} {smp : Simplifier}

/-! ## Coefficients -/

/-- All coefficients of the constraints are elements of the field. -/
def InField (p : ℕ) (constraints : List C) : Prop := ∀ c ∈ constraints, c.CoeffsInField p

theorem InField.append {l' : List C} (h : InField p l) (h' : InField p l') : InField p (l ++ l') :=
  List.forall_mem_append.mpr ⟨h, h'⟩

theorem InField.push (h : InField p l) (hc : c.CoeffsInField p) : InField p (l ++ [c]) :=
  h.append (List.forall_mem_singleton.mpr hc)

theorem inField_nil : InField p [] := List.forall_mem_nil _

theorem InField.set (h : InField p l) (hc : c.CoeffsInField p) (i : ℕ) : InField p (l.set i c) := by
  intro d hd
  rcases List.mem_or_eq_of_mem_set hd with hd | rfl
  · exact h d hd
  · exact hc

theorem coeffs_empty : (Constraint.empty : C).CoeffsInField p :=
  ⟨Constraint.coeffsInField_empty _, Constraint.coeffsInField_empty _, Constraint.coeffsInField_empty _⟩

variable [hp : Fact p.Prime]

/-- Numbers, signals and linear expressions. -/
def NoProduct : A → Prop
  | .quadratic .. => False
  | _ => True

omit hp in
theorem noProduct_mul (v : ℤ) {e : A} (h : NoProduct e) : NoProduct (ArithmeticExpression.mul (.number v) e p) := by
  cases e with
  | quadratic => exact h.elim
  | number | signal | linear | nonQuadratic => trivial

theorem yields_sub {l r : A} (hl : NoProduct l) (hr : NoProduct r) :
    Yields NoProduct (ArithmeticExpression.sub l r p) := by
  unfold ArithmeticExpression.sub
  have hr := noProduct_mul (p := p) (-1) hr
  cases hneg : ArithmeticExpression.mul (.number (-1)) r (p : ℤ) <;> rw [hneg] at hr <;> cases l <;>
    first
    | exact hl.elim
    | exact hr.elim
    | exact yields_some trivial
    | exact (yields_true _).bind fun _ _ => yields_some trivial

theorem yields_transform {e : A} (h : NoProduct e) :
    Yields (fun c : C => c.CoeffsInField p) (ArithmeticExpression.transformExpressionToConstraintForm e p) := by
  have hz : Algebra.CoeffsInField (p : ℤ) (Algebra.initializeHashmapForExpression (∅ : HashMap ℕ ℤ)) :=
    Algebra.coeffsInField_initialized (Constraint.coeffsInField_empty _)
  cases e with
  | quadratic => exact h.elim
  | nonQuadratic => exact yields_none
  | number | signal | linear => exact yields_some ⟨hz, hz, Algebra.coeffsInField_multiply _ _⟩

/-! ### Linear elimination -/

theorem noProduct_decompose (s : S) : NoProduct s.decompose.2 := by
  show NoProduct (ArithmeticExpression.hashmapIntoArith s.toExpr)
  unfold ArithmeticExpression.hashmapIntoArith
  split
  · split_ifs
    all_goals trivial
  · trivial

theorem yields_mergeConflict (inConflict : ℤ × S) (coefficient : ℤ) (substitution : S) :
    Yields (fun c => c.CoeffsInField p) (mergeConflict inConflict coefficient substitution p) := by
  refine (yields_sub (p := p) (noProduct_mul _ (noProduct_decompose _)) (noProduct_mul _ (noProduct_decompose _))).bind
    fun merge hmerge => (yields_transform (p := p) hmerge).bind fun work hwork => ?_
  exact yields_some (Constraint.coeffsInField_removeZero hwork)

theorem yields_treatConstraint3Loop (fuel : ℕ) {state : State3} (hstate : InField p state.lconst) {work : C}
    (hwork : work.CoeffsInField p) :
    Yields (fun t => InField p t.lconst) (treatConstraint3Loop p fuel state work) := by
  induction fuel generalizing state work with
  | zero => exact yields_none
  | succ fuel ih =>
    unfold treatConstraint3Loop
    refine Yields.ite (fun _ => yields_some hstate) fun _ => ?_
    cases takeSignal3 state.signals work with
    | none => exact yields_some (hstate.push hwork)
    | some out =>
      refine (yields_true _).bind fun taken _ => ?_
      dsimp only
      cases state.substitutions.lookup taken.2.fromSignal with
      | none => exact yields_some hstate
      | some inConflict =>
        refine (yields_mergeConflict _ _ _).bind fun work' hwork' => ih ?_ hwork'
        exact hstate

theorem yields_treatConstraint4Loop (o : HashOrder) (fuel : ℕ) {state : State4} (hstate : InField p state.lconst)
    {work : C} (hwork : work.CoeffsInField p) :
    Yields (fun t => InField p t.lconst) (treatConstraint4Loop o p fuel state work) := by
  induction fuel generalizing state work with
  | zero => exact yields_none
  | succ fuel ih =>
    unfold treatConstraint4Loop
    refine Yields.ite (fun _ => yields_some hstate) fun _ => (yields_true _).bind fun taken _ => ?_
    cases taken with
    | none => exact yields_some (hstate.push hwork)
    | some out =>
      refine (yields_true _).bind fun cleared _ => ?_
      dsimp only
      cases state.substitutions.lookup cleared.2.fromSignal with
      | none => exact yields_some hstate
      | some inConflict =>
        refine (yields_mergeConflict _ _ _).bind fun work' hwork' => ih ?_ hwork'
        exact hstate

theorem yields_fullSimplification (o : HashOrder) {config : Config} (hfield : config.field = p)
    (h : InField p config.constraints) :
    Yields (fun out => InField p out.constraints) (fullSimplification o config) := by
  obtain ⟨field, constraints, forbidden, heuristics⟩ := config
  obtain rfl : field = p := hfield
  refine Yields.ite (fun _ => ?_) fun _ => ?_
  · have hprocess : Yields (fun t => InField p t.lconst)
        (substitutionProcess4 (o.sub 0) ⟨∅, forbidden, []⟩ constraints p) := by
      refine (yields_true _).bind fun start _ => ?_
      -- the first pass takes constraints away and leaves none
      refine Yields.bind (P := fun acc : State4 × List C => InField p acc.1.lconst ∧ InField p acc.2)
        (yields_foldlM (fun acc hacc unique _ => ?_) ⟨inField_nil, h⟩) fun acc hacc => ?_
      · refine (yields_true _).bind fun actual _ => Yields.ite (fun _ => yields_some hacc) fun _ => ?_
        refine (yields_true _).bind fun info _ => Yields.bind (P := fun t : State4 => InField p t.lconst) ?_ fun t ht =>
          yields_some ⟨ht, hacc.2.set coeffs_empty _⟩
        exact (yields_true _).bind fun _ _ => yields_some hacc.1
      · refine yields_foldlM (fun state hstate indexed hmem => (yields_true _).bind fun info _ => ?_) hacc.1
        refine yields_treatConstraint4Loop _ _ ?_ (hacc.2 _ (List.fst_mem_of_mem_zipIdx (List.mem_reverse.mp hmem)))
        exact hstate
    exact hprocess.bind fun state hstate => (yields_true _).bind fun _ _ => (yields_true _).bind fun _ _ =>
      yields_some hstate
  · have hprocess : Yields (fun t => InField p t.lconst) (substitutionProcess3 ⟨∅, forbidden⟩ constraints p) :=
      yields_foldlM (fun state hstate work hwork =>
        yields_treatConstraint3Loop _ hstate (h work (List.mem_reverse.mp hwork))) inField_nil
    exact hprocess.bind fun state hstate => (yields_true _).bind fun _ _ => yields_some hstate

/-! ### The phases -/

/-- The constraints of all clusters. -/
def InClusters (p : ℕ) (arena : ClusterArena) : Prop := ∀ cluster, some cluster ∈ arena → InField p cluster.constraints

omit hp in
theorem InClusters.set {arena : ClusterArena} (h : InClusters p arena) {cluster : Option Cluster}
    (hc : ∀ c, cluster = some c → InField p c.constraints) (i : ℕ) : InClusters p (arena.set i cluster) := by
  intro c hmem
  rcases List.mem_or_eq_of_mem_set hmem with hmem | heq
  · exact h c hmem
  · exact hc c heq.symm

omit hp in
theorem InClusters.getD {arena : ClusterArena} (h : InClusters p arena) {i : ℕ} {c : Option Cluster}
    (hc : arena[i]? = some c) : InField p (c.getD {}).constraints := by
  cases c with
  | none => exact inField_nil
  | some c => exact h c (List.mem_of_getElem? hc)

theorem yields_buildClusters (o : HashOrder) {linear : List C} (h : InField p linear) (noVars : ℕ) :
    Yields (fun clusters => ∀ cluster ∈ clusters, InField p cluster.constraints)
      (buildClusters o linear noVars) := by
  refine Yields.bind (P := fun clusters : Clusters => InClusters p clusters.arena)
    (yields_foldlM (fun clusters hclusters c hc => Yields.ite (fun _ => yields_some hclusters) fun _ => ?_) ?_)
    fun clusters hclusters => yields_some fun cluster hcluster => ?_
  · refine yields_foldlM (P := fun clusters : Clusters => InClusters p clusters.arena) (fun clusters hclusters s _ =>
      (yields_true _).bind fun prev _ => ?_) ?_
    · refine Yields.ite (fun _ => ?_) fun _ => yields_some hclusters
      refine Yields.bind (P := fun r : ClusterArena × ClusterPath => InClusters p r.1) ?_ fun r hr => yields_some hr
      refine (yields_true _).bind fun d _ => (yields_true _).bind fun s _ => ?_
      intro r hr
      obtain ⟨c0, hc0, hr⟩ := Option.bind_eq_some_iff.mp hr
      obtain ⟨c1, hc1, hr⟩ := Option.bind_eq_some_iff.mp hr
      obtain ⟨merged, hmerged, hr⟩ := Option.bind_eq_some_iff.mp hr
      obtain rfl := Option.some.inj hr
      have h0 : InClusters p (clusters.arena.set d.2 none) := hclusters.set (fun c hc => by cases hc) d.2
      refine (h0.set (fun c hc => by cases hc) s.2).set (fun c hc => ?_) d.2
      obtain rfl := Option.some.inj hc
      unfold Cluster.merge at hmerged
      split_ifs at hmerged
      obtain rfl := Option.some.inj hmerged
      exact (hclusters.getD hc0).append (h0.getD hc1)
    · intro cluster hcluster
      rcases List.mem_append.mp hcluster with hmem | hmem
      · exact hclusters cluster hmem
      · obtain rfl := Option.some.inj (List.mem_singleton.mp hmem)
        exact List.forall_mem_singleton.mpr (h c hc)
  · intro cluster hcluster
    cases hcluster
  · exact hclusters cluster (List.reduceOption_mem_iff.mp (List.mem_filter.mp hcluster).1)

theorem yields_linearSimplification (o : HashOrder) {linear : List C} (h : InField p linear) (forbidden : Finset ℕ)
    (noLabels : ℕ) (useOldHeuristics : Bool) :
    Yields (fun r => InField p r.2) (linearSimplification o linear forbidden noLabels p useOldHeuristics) := by
  refine (yields_buildClusters _ h _).bind fun clusters hclusters => Yields.bind (yields_mapM fun e he =>
    yields_fullSimplification _ rfl (hclusters e.1 (List.fst_mem_of_mem_zipIdx he))) fun results hresults => ?_
  refine yields_some fun c hc => ?_
  obtain ⟨result, hresult, hc⟩ := List.mem_flatMap.mp hc
  exact hresults result ((HashOrder.walk_perm _ _).mem_iff.mp hresult) c hc

theorem yields_eqClusterSimplification (o : HashOrder) {cluster : Cluster} (h : InField p cluster.constraints)
    (forbidden : Finset ℕ) : Yields (fun r => InField p r.2) (eqClusterSimplification o cluster forbidden p) := by
  refine Yields.ite (fun _ => ?_) fun _ => ?_
  · refine Yields.bind (P := fun c : C => c.CoeffsInField p) (fun c hc => h c (List.mem_of_getLast? hc)) fun c hc => ?_
    refine (yields_true _).bind fun s0 _ => (yields_true _).bind fun s1 _ => ?_
    refine Yields.ite (fun _ => yields_some (List.forall_mem_singleton.mpr hc)) fun _ => ?_
    refine Yields.ite (fun _ => ?_) fun _ => ?_
    · exact (yields_true _).bind fun _ _ => yields_some inField_nil
    refine Yields.ite (fun _ => ?_) fun _ => ?_
    all_goals exact (yields_true _).bind fun _ _ => yields_some inField_nil
  · refine (yields_true _).bind fun split _ => Yields.bind (yields_mapM fun signal _ =>
      (yields_sub (p := p) (l := .signal signal) (r := .signal split.1) trivial trivial).bind fun e he =>
        yields_transform he) fun cons hcons => ?_
    exact (yields_true _).bind fun subs _ => yields_some hcons

theorem yields_eqSimplification (o : HashOrder) {equalities : List C} (h : InField p equalities) (forbidden : Finset ℕ)
    (noVars : ℕ) : Yields (fun r => InField p r.2) (eqSimplification o equalities forbidden noVars p) := by
  refine (yields_buildClusters _ h _).bind fun clusters hclusters =>
    Yields.bind (P := fun results : List (Cluster × List S × List C) => ∀ e ∈ results, InField p e.2.2)
      (yields_mapM fun e he => ?_) fun results hresults => yields_some fun c hc => ?_
  · exact (yields_eqClusterSimplification _ (hclusters e.1 (List.fst_mem_of_mem_zipIdx he)) _).bind fun r hr =>
      yields_some hr
  · obtain ⟨e, he, hc⟩ := List.mem_flatMap.mp hc
    exact hresults e he c hc

omit hp in
theorem yields_constantEqSimplification {cEq : List C} (h : InField p cEq) (forbidden : Finset ℕ) :
    Yields (fun r => InField p r.2) (constantEqSimplification cEq forbidden p) := by
  refine yields_foldlM (fun acc hacc c hc => (yields_true _).bind fun signal _ => ?_) inField_nil
  refine Yields.ite (fun _ => yields_some (hacc.push (h c hc))) fun _ => ?_
  exact (yields_true _).bind fun sub _ => yields_some hacc

theorem yields_fastEncodedConstraintSubstitution (o : HashOrder) (h : c.CoeffsInField p) (enc : SEncoded) :
    Yields (fun r => r.1.CoeffsInField p) (fastEncodedConstraintSubstitution o c enc p) := by
  refine yields_foldlM (P := fun r : C × Bool => r.1.CoeffsInField p) (fun acc hacc signal _ => ?_) h
  cases enc.lookup signal with
  | none => exact yields_some hacc
  | some expr => exact (yields_true _).bind fun sub _ =>
      yields_some (Constraint.coeffsInField_applySubstitution hacc sub)

theorem yields_substituteEach (o : HashOrder) (enc : SEncoded) {constraints : List C} (h : InField p constraints) :
    Yields (InField p) (substituteEach o enc p constraints) := by
  refine yields_mapM fun e he => (yields_fastEncodedConstraintSubstitution _
    (h e.1 (List.fst_mem_of_mem_zipIdx he)) enc).bind fun r hr => yields_some ?_
  by_cases hchanged : r.2
  · rw [if_pos hchanged]
    exact Constraint.coeffsInField_fixConstraint hr
  · rw [if_neg hchanged]
    exact hr

theorem yields_storeNonLinear (o : HashOrder) (frames : SFrames) {acc : Algebra.ConstraintStorage × List C}
    (hacc : InField p acc.1.constraints ∧ InField p acc.2) (hc : c.CoeffsInField p) :
    Yields (fun r => InField p r.1.constraints ∧ InField p r.2) (storeNonLinear o frames p acc c) := by
  refine Yields.bind (P := fun c : C => c.CoeffsInField p)
    (yields_foldlM (P := fun c : C => c.CoeffsInField p) (fun c hc frame _ => (yields_fastEncodedConstraintSubstitution _
      hc _).bind fun r hr => yields_some hr) hc) fun c' hc' => ?_
  have hfix := Constraint.coeffsInField_fixConstraint hc'
  exact Yields.ite (fun _ => yields_some ⟨hacc.1, hacc.2.push hfix⟩) fun _ => yields_some ⟨hacc.1.push hfix, hacc.2⟩

/-! ### The rounds -/

omit hp in
theorem yields_readConstraint {storage : Algebra.ConstraintStorage} (h : InField p storage.constraints) (cId : ℕ) :
    Yields (fun c => c.CoeffsInField p) (storage.readConstraint cId) := fun c hc =>
  h c (List.mem_of_getElem? hc)

theorem yields_applySubstitutionToMap {mapped : Mapped} (h : InField p mapped.storage.constraints) (subs : List S) :
    Yields (fun r => InField p r.1.storage.constraints ∧ InField p r.2) (applySubstitutionToMap mapped subs p) := by
  refine Yields.bind (P := fun acc : Mapped × List ℕ => InField p acc.1.storage.constraints)
    (yields_foldlM (fun acc hacc sub _ => ?_) h) fun acc hacc => ?_
  · unfold constraintProcessing
    cases acc.1.map.lookup sub.fromSignal with
    | none => exact yields_some hacc
    | some cIds =>
      refine yields_foldlM (fun acc hacc cId _ => (yields_readConstraint hacc cId).bind fun c hc => yields_some ?_) hacc
      exact InField.set hacc
        (Constraint.coeffsInField_fixConstraint (Constraint.coeffsInField_applySubstitution hc sub)) _
  · refine Yields.bind (P := fun r : Algebra.ConstraintStorage × List C => InField p r.1.constraints ∧ InField p r.2)
      (yields_foldlM (fun r hr cId _ => ?_) ⟨hacc, inField_nil⟩) fun r hr => yields_some hr
    exact (yields_readConstraint hr.1 cId).bind fun c hc => yields_some ⟨hr.1.set coeffs_empty _, hr.2.push hc⟩

theorem coeffs_foldl_applySubstitution (subs : List S) (h : c.CoeffsInField p) :
    (subs.foldl (fun c sub => c.applySubstitution sub p) c).CoeffsInField p := by
  induction subs generalizing c with
  | nil => exact h
  | cons sub subs ih => exact ih (Constraint.coeffsInField_applySubstitution h sub)

/-- The coefficients of all constraints of a state. -/
def RoundState.CoeffsInField (p : ℕ) (state : RoundState) : Prop :=
  InField p state.mapped.storage.constraints ∧ InField p state.linear ∧ InField p state.lconst

theorem yields_simplifyRounds (o : HashOrder) (hfield : smp.field = p) (noRounds : ℕ) {state : RoundState}
    (h : state.CoeffsInField p) : Yields (RoundState.CoeffsInField p) (simplifyRounds o smp noRounds state) := by
  induction noRounds generalizing state with
  | zero => exact yields_some h
  | succ noRounds ih =>
    refine Yields.ite (fun _ => yields_some h) fun _ => Yields.bind (P := RoundState.CoeffsInField p) ?_ fun _ => ih
    unfold simplifyRound
    rw [hfield]
    refine (yields_linearSimplification _ h.2.1 _ _ _).bind fun solved hsolved =>
      (yields_applySubstitutionToMap h.1 _).bind fun applied happlied => yields_some ⟨happlied.1, happlied.2, ?_⟩
    intro c hc
    obtain ⟨c', hc', rfl⟩ := List.mem_map.mp hc
    exact Constraint.coeffsInField_fixConstraint (coeffs_foldl_applySubstitution _ (h.2.2.append hsolved c' hc'))

omit hp in
theorem inField_foldl_addConstraint (hl : InField p l) {mapped : Mapped} (h : InField p mapped.storage.constraints) :
    InField p (l.foldl Mapped.addConstraint mapped).storage.constraints := by
  induction l generalizing mapped with
  | nil => exact h
  | cons c l ih =>
    exact ih (fun d hd => hl d (List.mem_cons_of_mem c hd)) (InField.push h (hl c List.mem_cons_self))

/-- The constraints that are left have a coefficient, and all of these are elements of the field. -/
def Canonical (p : ℕ) (constraints : List C) : Prop := InField p constraints ∧ ∀ c ∈ constraints, c.isEmpty = false

theorem yields_finishSimplification (hfield : smp.field = p) {state : RoundState} (h : state.CoeffsInField p) :
    Yields (fun out => Canonical p out.constraintStorage.constraints) (finishSimplification smp state) := by
  refine Yields.ite (fun _ => yields_none) fun _ => yields_some ⟨fun c hc => ?_, fun c hc => ?_⟩
  · have hc := (List.mem_filter.mp hc).1
    rw [← List.foldl_map, hfield] at hc
    refine inField_foldl_addConstraint (fun d hd => ?_) (inField_foldl_addConstraint h.2.1 h.1) c hc
    obtain ⟨e, he, rfl⟩ := List.mem_map.mp hd
    exact Constraint.coeffsInField_fixConstraint (h.2.2 e he)
  · exact (Bool.not_eq_true' _).mp (List.mem_filter.mp hc).2

theorem yields_simplification (h : smp.WellFormed p) (o : HashOrder) :
    Yields (fun out => Canonical p out.constraintStorage.constraints) (simplification o smp) := by
  unfold simplification
  rw [h.field_eq]
  obtain ⟨iter, hnew, hiter⟩ := EncodingIterator.new_spec smp.dagEncoding
  rw [hnew]
  show Yields _ (some iter >>= _)
  rw [Option.bind_eq_bind, Option.bind_some]
  refine (yields_true _).bind fun relevant _ => ?_
  refine Yields.bind (P := fun r : Pending × SEncoded =>
    InField p r.1.linear ∧ InField p r.1.consEqualities ∧ InField p r.1.lconst) ?_ fun first hfirst => ?_
  · unfold simplifyEqualities
    rw [h.field_eq]
    refine (yields_eqSimplification _ (fun c hc => (h.equalities c hc).2.coeffs) _ _).bind fun solved hsolved => ?_
    refine (yields_substituteEach _ _ fun c hc => (h.linear c hc).coeffs).bind fun linear hlinear => ?_
    refine (yields_substituteEach _ _ fun c hc => (h.consEqualities c hc).2.coeffs).bind fun cons hcons => ?_
    exact yields_some ⟨hlinear, hcons, hsolved⟩
  refine Yields.bind (P := fun r : Pending × SEncoded => InField p r.1.linear ∧ InField p r.1.lconst) ?_
    fun second hsecond => (yields_true _).bind fun relevant _ => ?_
  · unfold simplifyConsEqualities
    rw [h.field_eq]
    refine (yields_constantEqSimplification hfirst.2.1 _).bind fun solved hsolved => ?_
    refine (yields_substituteEach _ _ hfirst.1).bind fun linear hlinear => ?_
    exact yields_some ⟨hlinear, hfirst.2.2.append hsolved⟩
  refine Yields.bind (P := fun r : Pending × SEncoded => InField p r.1.lconst) ?_ fun third hthird => ?_
  · unfold simplifyLinear
    rw [h.field_eq]
    refine Yields.ite (fun _ => ?_) fun _ => yields_some (hsecond.2.append hsecond.1)
    refine (yields_linearSimplification _ hsecond.1 _ _ _).bind fun solved hsolved => ?_
    refine (yields_substituteEach _ _ (hsecond.2.append hsolved)).bind fun lconst hlconst => yields_some hlconst
  refine Yields.bind (P := fun r : Algebra.ConstraintStorage × List C => InField p r.1.constraints ∧ InField p r.2) ?_
    fun stored hstored => (yields_true _).bind fun map _ => ?_
  · have hvisit : ∀ acc it n offset, IsIterator smp.dagEncoding it n offset →
        it.nonLinear.foldlM (storeNonLinear (o.sub 3) [first.2, second.2, third.2] p) acc =
          (smp.dagEncoding.instanceNonLinear (n, offset)).foldlM
            (storeNonLinear (o.sub 3) [first.2, second.2, third.2] p) acc := fun acc it n offset hit => by
      rw [hit.nonLinear_eq]
    have hwalk := EncodingIterator.walk_eq hiter (fun acc i => (smp.dagEncoding.instanceNonLinear i).foldlM
      (storeNonLinear (o.sub 3) [first.2, second.2, third.2] p) acc) hvisit (Algebra.ConstraintStorage.new, [])
    rw [← Lib.foldlM_flatMap] at hwalk
    unfold obtainAndSimplifyNonLinear
    rw [hwalk]
    exact yields_foldlM (fun acc hacc c hc => yields_storeNonLinear _ _ hacc (h.nonLinear c hc))
      ⟨inField_nil, inField_nil⟩
  have hstart : RoundState.CoeffsInField p ⟨⟨stored.1, map⟩, stored.2, third.1.lconst, third.1.deleted⟩ :=
    ⟨hstored.1, hstored.2, hthird⟩
  dsimp only
  refine Yields.ite (fun _ => ?_) fun _ => yields_finishSimplification h.field_eq hstart
  exact (yields_simplifyRounds _ h.field_eq _ hstart).bind fun state => yields_finishSimplification h.field_eq

/-- The simplification returns, and all coefficients of its constraints are canonical. -/
theorem simplification_canonical {smp : Simplifier} (h : smp.WellFormed p) (o : HashOrder) :
    ∃ out, simplification o smp = some out ∧ Canonical p out.constraintStorage.constraints := by
  obtain ⟨out, -, hrun, -⟩ := simplification_spec o h
  exact ⟨out, hrun, yields_simplification h o out hrun⟩

theorem simplification_canonical_product :
    ∃ out, simplification HashOrder.listOrder (product [⟨∅, ∅, AList.ofPairs [(2, 1), (0, 4)]⟩]) = some out ∧
      Canonical 5 out.constraintStorage.constraints := by
  have : Fact (Nat.Prime 5) := ⟨by norm_num⟩
  exact simplification_canonical (product_wellFormed (by decide)) HashOrder.listOrder

/-! ## Wires for signals -/

omit hp

/-- An expression over few wires fits into the file. -/
theorem inRange_of_lt {bound : ℕ} (hkeys : ∀ k ∈ symbols, k < bound) (hbound : bound < 2 ^ 32)
    (hcoeffs : Algebra.CoeffsInField p symbols) : ConstraintWriters.ConstraintInRange p symbols := by
  constructor
  · have hle := (List.Nodup.subperm (AList.keys_nodup symbols) fun k hk =>
      List.mem_range.mpr (hkeys k (AList.mem_keys.mpr hk))).length_le
    rw [List.length_range, ← AList.len_eq_length_keys] at hle
    exact hle.trans_lt hbound
  · intro e he
    have hlookup : symbols.lookup e.1 = some e.2 := AList.mem_pairs_iff_lookup.mp he
    exact ⟨(hkeys e.1 (AList.mem_iff_exists_lookup.mpr ⟨_, hlookup⟩)).trans hbound, hcoeffs e.1 e.2 hlookup⟩

/-- The wire of a signal that has one. -/
def wireOf (map : SignalMap) (signal : ℕ) : ℕ := (map.lookup signal).getD 0

/-- Signal 0 is wire 0. -/
structure Wired (map : SignalMap) (witness : List ℕ) : Prop extends Numbers map witness where
  constant : witness[0]? = some 0

namespace Wired

variable {map : SignalMap} {witness : List ℕ}

theorem witness_wireOf (h : Wired map witness) {k : ℕ} (hk : k ∈ map) : witness[wireOf map k]? = some k := by
  obtain ⟨i, hi⟩ := AList.mem_iff_exists_lookup.mp hk
  rw [wireOf, hi]
  exact (h.lookup_iff k i).mp hi

theorem wireOf_eq (h : Wired map witness) {i k : ℕ} (hi : witness[i]? = some k) : wireOf map k = i := by
  rw [wireOf, (h.lookup_iff k i).mpr hi]
  rfl

theorem zero_mem (h : Wired map witness) : 0 ∈ map :=
  AList.mem_iff_exists_lookup.mpr ⟨0, (h.lookup_iff 0 0).mpr h.constant⟩

/-- Every signal of an expression that is renamed has a wire. -/
theorem renamed_eq (h : Wired map witness) (hrenamed : Algebra.applyRawCorrespondence symbols map = some renamed) :
    (∀ k ∈ symbols, k ∈ map) ∧ renamed = AList.ofPairs (symbols.pairs.map fun e => (wireOf map e.1, e.2)) := by
  obtain ⟨pairs, hpairs, hrenamed⟩ := Option.bind_eq_some_iff.mp hrenamed
  obtain rfl := Option.some.inj hrenamed
  have hstep : List.Forall₂ (fun e e' => e.1 ∈ map ∧ e' = (wireOf map e.1, e.2)) symbols.pairs pairs := by
    refine (Lib.forall₂_of_mapM hpairs).imp ?_
    rintro ⟨key, value⟩ e' he
    simp only at he
    split_ifs at he with h0
    · obtain rfl := Option.some.inj he
      rw [h0]
      exact ⟨h.zero_mem, Prod.ext (h.wireOf_eq h.constant).symm rfl⟩
    · obtain ⟨id, hid, he⟩ := Option.bind_eq_some_iff.mp he
      obtain rfl := Option.some.inj he
      exact ⟨AList.mem_iff_exists_lookup.mpr ⟨id, hid⟩, by rw [wireOf, hid]; rfl⟩
  refine ⟨fun k hk => ?_, congrArg AList.ofPairs ?_⟩
  · obtain ⟨v, hv⟩ := AList.mem_iff_exists_lookup.mp hk
    obtain ⟨e', -, hmem, -⟩ := Lib.exists_of_forall₂_left hstep (AList.mem_pairs_iff_lookup.mpr hv)
    exact hmem
  · exact (List.map_id pairs).symm.trans (Lib.map_eq_of_forall₂ hstep fun _ _ he => he.2)

theorem eval_renamed (h : Wired map witness) (hrenamed : Algebra.applyRawCorrespondence symbols map = some renamed)
    (τ : ℕ → ZMod p) : renamed.eval τ = symbols.eval (τ ∘ wireOf map) := by
  obtain ⟨hmem, rfl⟩ := h.renamed_eq hrenamed
  refine AList.eval_ofPairs_map τ (wireOf map) symbols fun a ha b hb heq => ?_
  have hwire := h.witness_wireOf (hmem a ha)
  rw [heq, h.witness_wireOf (hmem b hb)] at hwire
  exact (Option.some.inj hwire).symm

/-- A renamed constraint says of the wires what the constraint says of their signals. -/
theorem sat_applyCorrespondence (h : Wired map witness) {c' : C} (hc : c.applyCorrespondence map = some c') :
    (∀ k, c.Mentions k → k ∈ map) ∧ ∀ τ : ℕ → ZMod p, c'.Sat τ ↔ c.Sat (τ ∘ wireOf map) := by
  obtain ⟨a, ha, hc⟩ := Option.bind_eq_some_iff.mp hc
  obtain ⟨b, hb, hc⟩ := Option.bind_eq_some_iff.mp hc
  obtain ⟨d, hd, hc⟩ := Option.bind_eq_some_iff.mp hc
  obtain rfl := Option.some.inj hc
  refine ⟨fun k hk => ?_, fun τ => ?_⟩
  · rcases hk with hk | hk | hk
    · exact (h.renamed_eq ha).1 k hk
    · exact (h.renamed_eq hb).1 k hk
    · exact (h.renamed_eq hd).1 k hk
  · rw [Constraint.Sat, h.eval_renamed ha, h.eval_renamed hb, h.eval_renamed hd, Constraint.Sat]

/-- The wires of a renamed expression fit into the file when there are not too many. -/
theorem inRange_renamed (h : Wired map witness) (hrenamed : Algebra.applyRawCorrespondence symbols map = some renamed)
    (hcoeffs : Algebra.CoeffsInField p symbols) (hlt : witness.length < 2 ^ 32) :
    ConstraintWriters.ConstraintInRange p renamed := by
  refine inRange_of_lt (fun k hk => ?_) hlt (Algebra.coeffsInField_applyRawCorrespondence hcoeffs hrenamed)
  obtain ⟨v, hv⟩ := AList.mem_iff_exists_lookup.mp hk
  obtain ⟨s, -, rfl | hs⟩ := Algebra.lookup_applyRawCorrespondence hrenamed hv
  · exact (List.getElem?_eq_some_iff.mp h.constant).1
  · exact (List.getElem?_eq_some_iff.mp ((h.lookup_iff s k).mp hs)).1

end Wired

/-! ## The content of the file -/

/-- Every number is smaller than its bytes can tell. -/
structure Fits (content : ConstraintWriters.R1CSContent) : Prop where
  fieldSize_lt : content.fieldSize < 2 ^ 32
  fields_lt : ∀ d ∈ content.headerData.dataStream, d.1 < 256 ^ d.2
  wires_lt : ∀ wire ∈ content.wires, wire < 2 ^ 64
  usages : content.customGates → content.usageData.length < 2 ^ 32 ∧
    ∀ usage ∈ content.usageData, 0 ∉ ConstraintWriters.nameBytes usage.1 ∧ usage.2.length < 2 ^ 32 ∧
      ∀ parameter ∈ usage.2, Algebra.ModularArithmetic.InField content.headerData.field parameter
  applications : content.customGates → content.applicationData.length < 2 ^ 32 ∧
    ∀ application ∈ content.applicationData, ConstraintWriters.R1csReader.FitsApplication application

/-- A constraint of the file, over the wires. -/
def ofFile (c : ConstraintWriters.Constraint × ConstraintWriters.Constraint × ConstraintWriters.Constraint) : C :=
  ⟨c.1, c.2.1, c.2.2⟩

section Content

variable {o : HashOrder} {list : ConstraintList} {witness : List ℕ} {customGates : Bool}
  {content : ConstraintWriters.R1CSContent} (hwired : Wired list.signalMap witness)
  (hwitness : list.getWitnessAsVec o = some witness) (hcontent : list.r1csContent o customGates = some content)

include hwitness hcontent

/-- The constraints are renamed one by one. -/
theorem r1csContent_spec : content.wires = witness ∧ content.customGates = customGates ∧
    content.headerData = ⟨list.field, list.noWires, list.noPublicOutputs, list.noPublicInputs, list.noPrivateInputs,
      list.noLabels, content.constraints.length⟩ ∧
    List.Forall₂ (fun c c' => c.applyCorrespondence list.signalMap = some (ofFile c')) list.constraints.constraints
      content.constraints := by
  obtain ⟨constraints, hconstraints, hcontent⟩ := Option.bind_eq_some_iff.mp hcontent
  obtain ⟨wires, hwires, hcontent⟩ := Option.bind_eq_some_iff.mp hcontent
  obtain ⟨gates, -, hcontent⟩ := Option.bind_eq_some_iff.mp hcontent
  obtain rfl := Option.some.inj hcontent
  refine ⟨Option.some.inj (hwires.symm.trans hwitness), rfl, rfl, ?_⟩
  have hrun := Lib.forall₂_of_mapM hconstraints
  rw [List.forall₂_iff_get] at hrun ⊢
  have hlength : list.constraints.constraints.length = constraints.length := by
    rw [← hrun.1]
    exact List.length_range.symm
  refine ⟨hlength, fun i hi hi' => ?_⟩
  have hi'' : i < list.constraints.getIds.length := hlength.symm ▸ hi' |>.trans_eq List.length_range.symm
  obtain ⟨c, hc, hrun⟩ := Option.bind_eq_some_iff.mp (hrun.2 i hi'' hi')
  obtain ⟨c', hc', hrun⟩ := Option.bind_eq_some_iff.mp hrun
  have hread : c = list.constraints.constraints.get ⟨i, hi⟩ := by
    have hget : list.constraints.constraints[i]? = some c := by
      simpa [Algebra.ConstraintStorage.getIds, Algebra.ConstraintStorage.readConstraint] using hc
    rw [List.getElem?_eq_getElem hi] at hget
    exact (Option.some.inj hget).symm
  rw [← hread, hc', ← Option.some.inj hrun]
  rfl

include hwired

theorem wellFormed_r1csContent [NeZero p] (hfield : list.field = p)
    (hcoeffs : InField p list.constraints.constraints) (hfits : Fits content) : content.WellFormed := by
  obtain ⟨hwires, -, hheader, hconstraints⟩ := r1csContent_spec hwitness hcontent
  have hprime : content.headerData.field = p := by rw [hheader, hfield]
  have hlen : content.headerData.totalWires = witness.length := by
    rw [hheader]
    exact hwired.toNumbers.len_eq
  have hlt : witness.length < 2 ^ 32 := by
    rw [← hlen]
    exact hfits.fields_lt _ List.mem_cons_self
  refine ⟨?_, hfits.fieldSize_lt, hfits.fields_lt, by rw [hheader], by rw [hlen, hwires], ?_, hfits.wires_lt,
    hfits.usages, hfits.applications⟩
  · rw [hprime]
    exact_mod_cast NeZero.pos p
  · intro c' hc'
    obtain ⟨c, hc, hrun⟩ := Lib.exists_of_forall₂_right hconstraints hc'
    obtain ⟨a, ha, hrun⟩ := Option.bind_eq_some_iff.mp hrun
    obtain ⟨b, hb, hrun⟩ := Option.bind_eq_some_iff.mp hrun
    obtain ⟨d, hd, hrun⟩ := Option.bind_eq_some_iff.mp hrun
    obtain ⟨rfl, rfl, rfl⟩ := Constraint.mk.inj (Option.some.inj hrun)
    rw [hprime]
    exact ⟨hwired.inRange_renamed ha (hcoeffs c hc).1 hlt, hwired.inRange_renamed hb (hcoeffs c hc).2.1 hlt,
      hwired.inRange_renamed hd (hcoeffs c hc).2.2 hlt⟩

/-- The wires can be given values exactly if the signals can. -/
theorem extends_iff_wires (forbidden : Finset ℕ) (σ : ℕ → ZMod p) :
    Extends forbidden σ list.constraints.constraints ↔
      ∃ τ : ℕ → ZMod p, (∀ i k, content.wires[i]? = some k → k ∈ forbidden → τ i = σ k) ∧
        ∀ c ∈ content.constraints, (ofFile c).Sat τ := by
  obtain ⟨hwires, -, -, hconstraints⟩ := r1csContent_spec hwitness hcontent
  rw [hwires]
  constructor
  · rintro ⟨ρ, hρ, hsat⟩
    refine ⟨fun i => ρ (witness[i]?.getD 0), fun i k hi hk => ?_, fun c' hc' => ?_⟩
    · show ρ (witness[i]?.getD 0) = _
      rw [hi]
      exact hρ k hk
    · obtain ⟨c, hc, hrun⟩ := Lib.exists_of_forall₂_right hconstraints hc'
      obtain ⟨hmem, hiff⟩ := hwired.sat_applyCorrespondence (p := p) hrun
      refine (hiff _).mpr ((Constraint.sat_congr fun k hk => ?_).mp (hsat c hc))
      show _ = ρ (witness[wireOf list.signalMap k]?.getD 0)
      rw [hwired.witness_wireOf (hmem k hk)]
      rfl
  · rintro ⟨τ, hτ, hsat⟩
    -- signals without a wire keep their values
    refine ⟨fun k => if k ∈ list.signalMap then τ (wireOf list.signalMap k) else σ k, fun k hk => ?_, fun c hc => ?_⟩
    · by_cases hmem : k ∈ list.signalMap
      · show ite _ _ _ = _
        rw [if_pos hmem]
        exact hτ _ k (hwired.witness_wireOf hmem) hk
      · exact if_neg hmem
    · obtain ⟨c', hc', hrun⟩ := Lib.exists_of_forall₂_left hconstraints hc
      obtain ⟨hmem, hiff⟩ := hwired.sat_applyCorrespondence (p := p) hrun
      refine (Constraint.sat_congr fun k hk => ?_).mp ((hiff τ).mp (hsat c' hc'))
      exact (if_pos (hmem k hk)).symm

end Content

end Circom.ConstraintList
