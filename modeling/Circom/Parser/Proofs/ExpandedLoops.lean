import Circom.Parser.Proofs.Counters
import Circom.Parser.Proofs.Expansion
import Circom.Parser.Proofs.GeneratedNames

/-!
# Creations in an expanded body

Each generated component is created once outside of the loops of the body, or once in the innermost loop
around its call, with the counter of this loop as its index.
-/

namespace Circom.Parser

open Circom.Ast
open Circom.Lib (Occurs bind_eq_ok)
open List (Subperm)

variable {templates : List (String × TemplateData)} {fileLib : FileLibrary}
  {varAccess : Option Expression} {Q : Statement → Prop}

variable {comps stmts subs vars : List Statement} {info : Meta} {s : Statement} {n : String}

/-! ## Sequences -/

theorem everywhere_flatMap {α : Type} {l : List α} {f : α → List Statement} :
    Everywhere Q (l.flatMap f) ↔ ∀ x ∈ l, Everywhere Q (f x) := by
  simp only [Everywhere, List.mem_flatMap, forall_exists_index, and_imp]
  exact ⟨fun h x hx s hs => h s x hx hs, fun h s x hx hs => h x hx s hs⟩

theorem Everywhere.imp {Q' : Statement → Prop}
    (himp : ∀ s, Q s → Q' s) (h : Everywhere Q stmts) : Everywhere Q' stmts :=
  fun s hs t ht => himp t (h s hs t ht)

/-- A statement without substatements. -/
theorem everywhere_leaf (hs : s.children = []) (h : Q s) : Everywhere Q [s] := by
  refine everywhere_singleton.mpr ⟨h, ?_⟩
  rw [hs]
  exact everywhere_nil

theorem declaredNames_append (l l' : List Statement) :
    declaredNames (l ++ l') = declaredNames l ++ declaredNames l' := by
  induction l with
  | nil => rfl
  | cons s l ih => rw [List.cons_append, declaredNames, declaredNames, ih, List.append_assoc]

theorem declaredNames_flatMap {α : Type} (l : List α) (f : α → List Statement) :
    declaredNames (l.flatMap f) = l.flatMap fun x => declaredNames (f x) := by
  induction l with
  | nil => rfl
  | cons x l ih => rw [List.flatMap_cons, List.flatMap_cons, declaredNames_append, ih]

/-- The statement neither declares nor assigns to `n`, nor does any below it. -/
abbrev Untouched (n : String) : List Statement → Prop := Everywhere fun t => n ∉ localNames t

theorem Untouched.noCreation (h : Untouched n stmts) :
    NoCreation n stmts := h.imp fun _ hs hcreates => hs hcreates.2

theorem Untouched.createdAt (h : Untouched n stmts) (access : List Access) : Everywhere (CreatedAt n access) stmts :=
  h.imp fun _ hs hcreates => absurd hcreates.2 hs

theorem Untouched.countsUp (h : Untouched n stmts) :
    Everywhere (CountsUp n) stmts := h.imp fun _ hs hmem => absurd hmem hs

theorem once_flatMap {α : Type} {l : List α} {names : α → List String} {f : α → List Statement}
    (hin : ∀ x ∈ l, n ∈ names x → Once n (f x)) (hout : ∀ x ∈ l, n ∉ names x → NoCreation n (f x))
    (hnodup : (l.flatMap names).Nodup) : Once n (l.flatMap f) := by
  induction l with
  | nil => exact .absent everywhere_nil
  | cons x l ih =>
    rw [List.flatMap_cons, List.nodup_append] at hnodup
    obtain ⟨-, hrest, hdisjoint⟩ := hnodup
    rw [List.flatMap_cons]
    by_cases hx : n ∈ names x
    · refine (hin x List.mem_cons_self hx).append (everywhere_flatMap.mpr fun y hy => ?_)
      apply hout y (List.mem_cons_of_mem _ hy)
      intro hmem
      exact hdisjoint n hx n (List.mem_flatMap.mpr ⟨y, hy, hmem⟩) rfl
    · exact Once.prepend (hout x List.mem_cons_self hx)
        (ih (fun y hy => hin y (List.mem_cons_of_mem _ hy))
          (fun y hy => hout y (List.mem_cons_of_mem _ hy)) hrest)

/-! ## Expressions -/

/-- The statements touch only the given components, and create each of them once. -/
structure CreatesEach (varAccess : Option Expression) (names : List String)
    (stmts : List Statement) : Prop where
  touched : Everywhere (fun t => ∀ n ∈ localNames t, n ∈ names) stmts
  created : ∀ n, Everywhere (CreatedAt n (anonymousAccess varAccess)) stmts
  once : names.Nodup → ∀ n ∈ names, Once n stmts

theorem CreatesEach.untouched {names : List String}
    (h : CreatesEach varAccess names stmts) (hn : n ∉ names) : Untouched n stmts :=
  h.touched.imp fun _ ht hmem => hn (ht n hmem)

theorem nodup_of_mem_flatMap {α : Type} {l : List α} {names : α → List String} {x : α} (hx : x ∈ l)
    (h : (l.flatMap names).Nodup) : (names x).Nodup := by
  obtain ⟨l₁, l₂, rfl⟩ := List.append_of_mem hx
  rw [List.flatMap_append, List.flatMap_cons] at h
  exact (List.nodup_append.mp (List.nodup_append.mp h).2.1).1

theorem createsEach_flatMap {α : Type} {l : List α} {names : α → List String}
    {f : α → List Statement} (h : ∀ x ∈ l, CreatesEach varAccess (names x) (f x)) :
    CreatesEach varAccess (l.flatMap names) (l.flatMap f) where
  touched := by
    refine everywhere_flatMap.mpr fun x hx => (h x hx).touched.imp fun t ht n hn => ?_
    exact List.mem_flatMap.mpr ⟨x, hx, ht n hn⟩
  created n := everywhere_flatMap.mpr fun x hx => (h x hx).created n
  once hnodup n _ := once_flatMap
    (fun x hx hn => (h x hx).once (nodup_of_mem_flatMap hx hnodup) n hn)
    (fun x hx hn => ((h x hx).untouched hn).noCreation) hnodup

/-- What the expansion of an expression generates. -/
structure UpdatedExpression.Generated (varAccess : Option Expression) (starts : List ℕ)
    (u : UpdatedExpression) : Prop where
  names : NamesFrom (declaredNames u.initComponents) starts
  declarations : ∀ d ∈ u.initComponents, d.isDeclaration = true
  creates : CreatesEach varAccess (declaredNames u.initComponents) u.substitutions

theorem generated_nil {starts : List ℕ} {e : Expression} :
    UpdatedExpression.Generated varAccess starts ⟨[], [], e⟩ where
  names := .nil
  declarations := fun _ h => absurd h List.not_mem_nil
  creates := {
    touched := everywhere_nil
    created := fun _ => everywhere_nil
    once := fun _ _ h => absurd h List.not_mem_nil }

theorem declares_anonymousDeclaration (varAccess : Option Expression) (info : Meta) (name : String) :
    (anonymousDeclaration varAccess info name).declares = [name] ∧
      (anonymousDeclaration varAccess info name).isDeclaration = true := by
  cases varAccess with
  | none => exact ⟨rfl, rfl⟩
  | some v => exact ⟨rfl, rfl⟩

theorem createsEach_inputStatements (info : Meta) (name : String) (access : List Access)
    {input : (String × AssignOp × Expression) × UpdatedExpression}
    (hop : input.1.2.1 = .assignConstraintSignal)
    (h : CreatesEach varAccess (declaredNames input.2.initComponents) input.2.substitutions) :
    Everywhere (fun t => ∀ n ∈ localNames t, n = name ∨ n ∈ declaredNames input.2.initComponents)
        (inputStatements info name access input) ∧
      (∀ n, Everywhere (CreatedAt n (anonymousAccess varAccess))
        (inputStatements info name access input)) ∧
      (∀ n, n ∉ declaredNames input.2.initComponents →
        NoCreation n (inputStatements info name access input)) ∧
      ∀ n, Once n input.2.substitutions → Once n (inputStatements info name access input) := by
  have hnot : ∀ n, NoCreation n [.substitution info name
      (access ++ [.componentAccess input.1.1]) input.1.2.1 input.2.expression] := by
    intro n
    refine everywhere_leaf rfl ?_
    rintro ⟨hassign, -⟩
    rw [hop] at hassign
    cases hassign
  refine ⟨everywhere_append.mpr ⟨?_, ?_⟩, ?_, ?_, ?_⟩
  · exact h.touched.imp fun t ht n hn => Or.inr (ht n hn)
  · exact everywhere_leaf rfl fun n hn => Or.inl (List.mem_singleton.mp hn)
  · intro n
    exact everywhere_append.mpr ⟨h.created n, (hnot n).imp fun _ hs hc => absurd hc hs⟩
  · exact fun n hn => everywhere_append.mpr ⟨(h.untouched hn).noCreation, hnot n⟩
  · exact fun n honce => honce.append (hnot n)

theorem generated_anonymousComp {id : String} {isParallel : Bool}
    {params signals : List Expression} {names : Option (List (AssignOp × String))}
    (ih : ∀ e ∈ signals, ∀ u, removeAnonymousFromExpression templates fileLib varAccess e = .ok u →
      u.Generated varAccess (componentStarts e)) {u : UpdatedExpression}
    (h : removeAnonymousComp templates fileLib varAccess info id isParallel params names
      (removeAnonymousFromEach templates fileLib varAccess signals) = .ok u) :
    u.Generated varAccess
      (info.start :: (componentStartsOfEach params ++ componentStartsOfEach signals)) := by
  obtain ⟨name, outputs, inputs, hname, hused, hexpand, hops, rfl⟩ := removeAnonymousComp_eq_ok h
  have hinputs : ∀ input ∈ inputs,
      input.2.Generated varAccess (componentStarts input.1.2.2) := by
    intro input hinput
    have hmem : input.1.2.2 ∈ usedSignals templates info id names signals := by
      rw [← hused]
      exact List.mem_map_of_mem hinput
    exact ih _ (mem_of_mem_usedSignals hmem) _ (hexpand input hinput)
  obtain ⟨hdeclares, hdeclaration⟩ := declares_anonymousDeclaration varAccess info name
  have hall : declaredNames (anonymousDeclaration varAccess info name ::
      inputs.flatMap fun input => input.2.initComponents) =
      name :: inputs.flatMap fun input => declaredNames input.2.initComponents := by
    rw [declaredNames, hdeclares, declaredNames_flatMap]
    rfl
  have hstmts := fun input (hinput : input ∈ inputs) => createsEach_inputStatements
    info name (anonymousAccess varAccess) (hops input hinput) (hinputs input hinput).creates
  have hcreation : ∀ n, Creates n (anonymousCreation varAccess info name id isParallel params) →
      n = name := fun n h => List.mem_singleton.mp h.2
  refine ⟨?_, ?_, ?_⟩
  · rw [hall]
    have hflat := NamesFrom.flatMap fun input hinput => (hinputs input hinput).names
    have hsub := flatMap_subperm (usedSignals_subperm templates info id names signals) componentStarts
    rw [← hused, List.flatMap_map, ← componentStartsOfEach_eq] at hsub
    refine (NamesFrom.cons hname (hflat.mono hsub)).mono ?_
    exact ((List.sublist_append_right _ _).cons_cons _).subperm
  · intro d hd
    rcases List.mem_cons.mp hd with rfl | hd
    · exact hdeclaration
    · obtain ⟨input, hinput, hd⟩ := List.mem_flatMap.mp hd
      exact (hinputs input hinput).declarations d hd
  · rw [hall]
    refine ⟨everywhere_singleton.mpr ⟨fun _ h => absurd h List.not_mem_nil, ?_⟩, ?_, ?_⟩
    · refine everywhere_cons.mpr ⟨⟨?_, everywhere_nil⟩, everywhere_flatMap.mpr ?_⟩
      · intro n hn
        rw [List.mem_singleton.mp hn]
        exact List.mem_cons_self
      · intro input hinput
        refine (hstmts input hinput).1.imp fun t ht n hn => ?_
        rcases ht n hn with rfl | hmem
        · exact List.mem_cons_self
        · exact List.mem_cons_of_mem _ (List.mem_flatMap.mpr ⟨input, hinput, hmem⟩)
    · intro n
      refine everywhere_singleton.mpr ⟨fun h => absurd h.2 List.not_mem_nil, ?_⟩
      refine everywhere_cons.mpr ⟨⟨?_, everywhere_nil⟩, everywhere_flatMap.mpr ?_⟩
      · intro h
        rw [hcreation n h]
        exact ⟨_, _, rfl⟩
      · exact fun input hinput => (hstmts input hinput).2.1 n
    · intro hnodup n hn
      obtain ⟨hname, hnodup⟩ := List.nodup_cons.mp hnodup
      refine .block ?_ everywhere_nil
      by_cases heq : n = name
      · refine .substitution (everywhere_flatMap.mpr fun input hinput => ?_)
        apply (hstmts input hinput).2.2.1 n
        intro hmem
        rw [heq] at hmem
        exact hname (List.mem_flatMap.mpr ⟨input, hinput, hmem⟩)
      · refine .tail (everywhere_leaf rfl fun h => heq (hcreation n h)) ?_
        refine once_flatMap ?_ (fun input hinput => (hstmts input hinput).2.2.1 n) hnodup
        intro input hinput hmem
        have hinner := nodup_of_mem_flatMap hinput hnodup
        exact (hstmts input hinput).2.2.2 n ((hinputs input hinput).creates.once hinner n hmem)

theorem generated_values {vals : List Expression}
    (ih : ∀ e ∈ vals, ∀ u, removeAnonymousFromExpression templates fileLib varAccess e = .ok u →
      u.Generated varAccess (componentStarts e))
    {result : List Statement × List Statement × List Expression}
    (h : collectValues (removeAnonymousFromEach templates fileLib varAccess vals) = .ok result)
    (e : Expression) :
    UpdatedExpression.Generated varAccess (componentStartsOfEach vals) ⟨result.1, result.2.1, e⟩ := by
  rw [removeAnonymousFromEach_eq] at h
  obtain ⟨entries, hfst, hexpand, rfl⟩ := collectValues_eq_ok h
  have hentries : ∀ entry ∈ entries, entry.2.Generated varAccess (componentStarts entry.1) := by
    intro entry hentry
    have hmem : entry.1 ∈ vals := by
      rw [← hfst]
      exact List.mem_map_of_mem hentry
    exact ih _ hmem _ (hexpand entry hentry)
  refine ⟨?_, ?_, ?_⟩
  · rw [declaredNames_flatMap, componentStartsOfEach_eq, ← hfst, List.flatMap_map]
    exact NamesFrom.flatMap fun entry hentry => (hentries entry hentry).names
  · intro d hd
    obtain ⟨entry, hentry, hd⟩ := List.mem_flatMap.mp hd
    exact (hentries entry hentry).declarations d hd
  · rw [declaredNames_flatMap]
    exact createsEach_flatMap fun entry hentry => (hentries entry hentry).creates

theorem generated_expression (e : Expression) :
    ∀ u, removeAnonymousFromExpression templates fileLib varAccess e = .ok u →
      u.Generated varAccess (componentStarts e) := by
  induction e using Expression.occurs_induction with
  | step e ih =>
    intro u h
    by_cases hexp : isExpanded e = true
    · cases e with
      | arrayInLine info vals =>
        obtain ⟨result, hresult, h⟩ := bind_eq_ok h
        cases h
        exact generated_values (fun e he => ih e he e (Occurs.refl e)) hresult _
      | tuple info vals =>
        obtain ⟨result, hresult, h⟩ := bind_eq_ok h
        cases h
        exact generated_values (fun e he => ih e he e (Occurs.refl e)) hresult _
      | anonymousComp info id isParallel params signals names =>
        have hsignals := fun e (he : e ∈ signals) =>
          ih e (List.mem_append_right params he) e (Occurs.refl e)
        exact generated_anonymousComp hsignals h
      | parallelOp info rhe =>
        cases rhe with
        | anonymousComp info' id isParallel params signals names =>
          have hsignals := fun e (he : e ∈ signals) =>
            ih _ (List.mem_singleton.mpr rfl) e
              ((Occurs.refl e).of_mem (List.mem_append_right params he))
          exact generated_anonymousComp hsignals h
        | _ => cases hexp
      | _ => cases hexp
    · rw [Bool.not_eq_true] at hexp
      rw [removeAnonymousFromExpression_of_not_isExpanded hexp] at h
      cases h
      exact generated_nil

/-! ## Statements -/

/-- The assignment `k = 0`. -/
def IsZeroing (k : String) (s : Statement) : Prop :=
  ∃ info info₁, s = .substitution info k [] .assignVar (.number info₁ 0)

/-- The names are different, and the statements touch none of them. -/
structure Fresh (names : List String) (stmts : List Statement) : Prop where
  nodup : names.Nodup
  untouched : ∀ n ∈ names, Untouched n stmts

def CreatedOnce (varAccess : Option Expression) (n : String) (bodies : List Statement) : Prop :=
  Once n bodies ∧ Everywhere (CreatedAt n (anonymousAccess varAccess)) bodies

def CreatedInLoop (n k : String) (bodies : List Statement) : Prop :=
  (∀ b ∈ bodies, InLoop n k b) ∧ ∃ info, Everywhere (CreatedAt n (counterAccess info k)) bodies

/-- What the expansion of a sequence generates: the new statements, the declarations of the components and
of the counters, and the first assignments to the counters. -/
structure Expanded (varAccess : Option Expression)
    (stmts bodies comps vars subs : List Statement) : Prop where
  names : NamesFrom (declaredNames comps ++ declaredNames vars) (nodeStartsOfEach stmts)
  declarations : ∀ d ∈ comps ++ vars, d.isDeclaration = true
  noCounters : comps = [] → vars = []
  zeroing : ∀ s ∈ subs, ∃ k ∈ declaredNames vars, IsZeroing k s
  zeroed : ∀ k ∈ declaredNames vars, ∃ s ∈ subs, IsZeroing k s
  untouched : ∀ n, n ∉ declaredNames comps → n ∉ declaredNames vars → Untouched n stmts →
    Untouched n bodies
  component : Fresh (declaredNames comps ++ declaredNames vars) stmts → ∀ n ∈ declaredNames comps,
    CreatedOnce varAccess n bodies ∨ ∃ k ∈ declaredNames vars, CreatedInLoop n k bodies
  counter : Fresh (declaredNames comps ++ declaredNames vars) stmts → ∀ k ∈ declaredNames vars,
    Everywhere (CountsUp k) bodies

theorem Untouched.createdInLoop (h : Untouched n stmts) (k : String) : ∀ s ∈ stmts, InLoop n k s := by
  intro s hs
  apply inLoop_of_noCreation
  intro t ht
  rw [List.mem_singleton.mp ht]
  exact fun t ht => h.noCreation s hs t ht

theorem expanded_unchanged (stmts : List Statement) : Expanded varAccess stmts stmts [] [] [] where
  names := .nil
  declarations := fun _ h => absurd h List.not_mem_nil
  noCounters := fun _ => rfl
  zeroing := fun _ h => absurd h List.not_mem_nil
  zeroed := fun _ h => absurd h List.not_mem_nil
  untouched := fun _ _ _ h => h
  component := fun _ _ h => absurd h List.not_mem_nil
  counter := fun _ _ h => absurd h List.not_mem_nil

theorem nodeStartsOfEach_append (l l' : List Statement) :
    nodeStartsOfEach (l ++ l') = nodeStartsOfEach l ++ nodeStartsOfEach l' := by
  induction l with
  | nil => rfl
  | cons s l ih => rw [List.cons_append, nodeStartsOfEach, nodeStartsOfEach, ih, List.append_assoc]

theorem nodeStartsOfEach_singleton (s : Statement) : nodeStartsOfEach [s] = nodeStarts s :=
  List.append_nil _

theorem interleave_perm {α : Type} (C C' K K' : List α) :
    ((C ++ C') ++ (K ++ K')).Perm ((C ++ K) ++ (C' ++ K')) := by
  rw [List.append_assoc, List.append_assoc]
  refine List.Perm.append_left C ?_
  rw [← List.append_assoc, ← List.append_assoc]
  exact List.perm_append_comm.append_right K'

/-- Fresh names for two sequences are fresh for each, and the names of one are not touched by the other. -/
theorem Fresh.split {C C' K K' : List String} {stmts' : List Statement}
    (h : Fresh ((C ++ C') ++ (K ++ K')) (stmts ++ stmts')) :
    Fresh (C ++ K) stmts ∧ Fresh (C' ++ K') stmts' ∧
      (∀ n ∈ C ++ K, n ∉ C' ∧ n ∉ K' ∧ Untouched n stmts') ∧
      ∀ n ∈ C' ++ K', n ∉ C ∧ n ∉ K ∧ Untouched n stmts := by
  have hperm := interleave_perm C C' K K'
  obtain ⟨hl, hr, hdisjoint⟩ := List.nodup_append.mp (hperm.nodup_iff.mp h.nodup)
  have huntouched : ∀ n ∈ (C ++ K) ++ (C' ++ K'), Untouched n stmts ∧ Untouched n stmts' :=
    fun n hn => everywhere_append.mp (h.untouched n (hperm.mem_iff.mpr hn))
  refine ⟨⟨hl, fun n hn => (huntouched n (List.mem_append_left _ hn)).1⟩,
    ⟨hr, fun n hn => (huntouched n (List.mem_append_right _ hn)).2⟩, ?_, ?_⟩
  · intro n hn
    refine ⟨fun hmem => ?_, fun hmem => ?_, (huntouched n (List.mem_append_left _ hn)).2⟩
    · exact hdisjoint n hn n (List.mem_append_left _ hmem) rfl
    · exact hdisjoint n hn n (List.mem_append_right _ hmem) rfl
  · intro n hn
    refine ⟨fun hmem => ?_, fun hmem => ?_, (huntouched n (List.mem_append_right _ hn)).1⟩
    · exact hdisjoint n (List.mem_append_left _ hmem) n hn rfl
    · exact hdisjoint n (List.mem_append_right _ hmem) n hn rfl

theorem Expanded.append {bodies stmts' bodies' comps' vars' subs' : List Statement}
    (h : Expanded varAccess stmts bodies comps vars subs) (h' : Expanded varAccess stmts' bodies' comps' vars' subs') :
    Expanded varAccess (stmts ++ stmts') (bodies ++ bodies') (comps ++ comps') (vars ++ vars')
      (subs ++ subs') where
  names := by
    rw [declaredNames_append, declaredNames_append, nodeStartsOfEach_append]
    exact (h.names.append h'.names).perm (interleave_perm _ _ _ _)
  declarations := by
    intro d hd
    rcases List.mem_append.mp ((interleave_perm comps comps' vars vars').mem_iff.mp hd) with hd | hd
    · exact h.declarations d hd
    · exact h'.declarations d hd
  noCounters := by
    intro hnil
    obtain ⟨hcomps, hcomps'⟩ := List.append_eq_nil_iff.mp hnil
    rw [h.noCounters hcomps, h'.noCounters hcomps', List.append_nil]
  zeroing := by
    intro s hs
    rw [declaredNames_append]
    rcases List.mem_append.mp hs with hs | hs
    · obtain ⟨k, hk, hzero⟩ := h.zeroing s hs
      exact ⟨k, List.mem_append_left _ hk, hzero⟩
    · obtain ⟨k, hk, hzero⟩ := h'.zeroing s hs
      exact ⟨k, List.mem_append_right _ hk, hzero⟩
  zeroed := by
    intro k hk
    rw [declaredNames_append] at hk
    rcases List.mem_append.mp hk with hk | hk
    · obtain ⟨s, hs, hzero⟩ := h.zeroed k hk
      exact ⟨s, List.mem_append_left _ hs, hzero⟩
    · obtain ⟨s, hs, hzero⟩ := h'.zeroed k hk
      exact ⟨s, List.mem_append_right _ hs, hzero⟩
  untouched := by
    intro n hcomps hvars hstmts
    rw [declaredNames_append, List.mem_append, not_or] at hcomps hvars
    obtain ⟨hl, hr⟩ := everywhere_append.mp hstmts
    exact everywhere_append.mpr
      ⟨h.untouched n hcomps.1 hvars.1 hl, h'.untouched n hcomps.2 hvars.2 hr⟩
  component := by
    intro hfresh n hn
    rw [declaredNames_append, declaredNames_append] at hfresh
    rw [declaredNames_append] at hn ⊢
    obtain ⟨hl, hr, hleft, hright⟩ := hfresh.split
    rcases List.mem_append.mp hn with hn | hn
    · obtain ⟨hc, hk, hstmts⟩ := hleft n (List.mem_append_left _ hn)
      have hother := h'.untouched n hc hk hstmts
      rcases h.component hl n hn with ⟨honce, hat⟩ | ⟨k, hk, hloop, info, hat⟩
      · exact Or.inl ⟨honce.append hother.noCreation, everywhere_append.mpr ⟨hat, hother.createdAt _⟩⟩
      · refine Or.inr ⟨k, List.mem_append_left _ hk, ?_, info,
          everywhere_append.mpr ⟨hat, hother.createdAt _⟩⟩
        intro b hb
        rcases List.mem_append.mp hb with hb | hb
        · exact hloop b hb
        · exact hother.createdInLoop k b hb
    · obtain ⟨hc, hk, hstmts⟩ := hright n (List.mem_append_left _ hn)
      have hother := h.untouched n hc hk hstmts
      rcases h'.component hr n hn with ⟨honce, hat⟩ | ⟨k, hk, hloop, info, hat⟩
      · exact Or.inl ⟨Once.prepend hother.noCreation honce,
          everywhere_append.mpr ⟨hother.createdAt _, hat⟩⟩
      · refine Or.inr ⟨k, List.mem_append_right _ hk, ?_, info,
          everywhere_append.mpr ⟨hother.createdAt _, hat⟩⟩
        intro b hb
        rcases List.mem_append.mp hb with hb | hb
        · exact hother.createdInLoop k b hb
        · exact hloop b hb
  counter := by
    intro hfresh k hk
    rw [declaredNames_append, declaredNames_append] at hfresh
    rw [declaredNames_append] at hk
    obtain ⟨hl, hr, hleft, hright⟩ := hfresh.split
    rcases List.mem_append.mp hk with hk | hk
    · obtain ⟨hc, hv, hstmts⟩ := hleft k (List.mem_append_right _ hk)
      exact everywhere_append.mpr
        ⟨h.counter hl k hk, (h'.untouched k hc hv hstmts).countsUp⟩
    · obtain ⟨hc, hv, hstmts⟩ := hright k (List.mem_append_right _ hk)
      exact everywhere_append.mpr
        ⟨(h.untouched k hc hv hstmts).countsUp, h'.counter hr k hk⟩

/-- A statement that only holds others together. -/
theorem Expanded.wrap {b : Statement} (h : Expanded varAccess s.children b.children comps vars subs)
    (hb : localNames b = []) (hstarts : (nodeStartsOfEach s.children).Subperm (nodeStarts s))
    (honce : ∀ n, Once n b.children → Once n [b]) : Expanded varAccess [s] [b] comps vars subs := by
  have hnone : ∀ n, n ∉ localNames b := by
    intro n
    rw [hb]
    exact List.not_mem_nil
  have hchildren : ∀ {n : String}, Untouched n [s] → Untouched n s.children :=
    fun h => (everywhere_singleton.mp h).2
  have hfresh : ∀ {names : List String}, Fresh names [s] → Fresh names s.children :=
    fun h => ⟨h.nodup, fun n hn => hchildren (h.untouched n hn)⟩
  refine ⟨?_, h.declarations, h.noCounters, h.zeroing, h.zeroed, ?_, ?_, ?_⟩
  · rw [nodeStartsOfEach_singleton]
    exact h.names.mono hstarts
  · intro n hc hv hstmts
    exact everywhere_singleton.mpr ⟨hnone n, h.untouched n hc hv (hchildren hstmts)⟩
  · intro hf n hn
    rcases h.component (hfresh hf) n hn with ⟨hcreated, hat⟩ | ⟨k, hk, hloop, info, hat⟩
    · exact Or.inl ⟨honce n hcreated,
        everywhere_singleton.mpr ⟨fun hc => absurd hc.2 (hnone n), hat⟩⟩
    · refine Or.inr ⟨k, hk, ?_, info, everywhere_singleton.mpr ⟨fun hc => absurd hc.2 (hnone n), hat⟩⟩
      intro b' hb'
      rw [List.mem_singleton.mp hb']
      exact .node (fun hc => hnone n hc.2) hloop
  · intro hf k hk
    exact everywhere_singleton.mpr
      ⟨fun hmem => absurd hmem (hnone k), h.counter (hfresh hf) k hk⟩

theorem expanded_withSubstitutions {rhe : UpdatedExpression} {subs : Expression → Statement} {starts : List ℕ}
    (h : rhe.Generated varAccess starts) (hstarts : starts.Subperm (nodeStarts s))
    (hnames : ∀ e, localNames (subs e) = localNames s) (hchildren : ∀ e, (subs e).children = []) :
    Expanded varAccess [s] [(withSubstitutions info rhe subs).body] rhe.initComponents [] [] := by
  have hlast : ∀ {n : String}, Untouched n [s] → Untouched n [subs rhe.expression] := by
    intro n hn
    refine everywhere_leaf (hchildren _) ?_
    rw [hnames]
    exact (everywhere_singleton.mp hn).1
  have hbody : ∀ {Q : Statement → Prop}, (∀ info stmts, Q (.block info stmts)) →
      Everywhere Q rhe.substitutions → Everywhere Q [subs rhe.expression] →
      Everywhere Q [(withSubstitutions info rhe subs).body] := by
    intro Q hblock hrhe hsubs
    rw [withSubstitutions]
    split_ifs
    · exact hsubs
    · exact everywhere_singleton.mpr ⟨hblock _ _, everywhere_append.mpr ⟨hrhe, hsubs⟩⟩
  refine ⟨?_, ?_, fun _ => rfl, fun _ h => absurd h List.not_mem_nil,
    fun _ h => absurd h List.not_mem_nil, ?_, ?_, fun _ _ h => absurd h List.not_mem_nil⟩
  · rw [nodeStartsOfEach_singleton]
    refine (h.names.mono hstarts).perm ?_
    rw [declaredNames, List.append_nil]
  · rw [List.append_nil]
    exact h.declarations
  · intro n hc _ hs
    exact hbody (fun _ _ => List.not_mem_nil) (h.creates.untouched hc) (hlast hs)
  · intro hfresh n hn
    have hs := hlast (hfresh.untouched n (List.mem_append_left _ hn))
    refine Or.inl ⟨?_, hbody (fun _ _ hc => absurd hc.2 List.not_mem_nil) (h.creates.created n)
      (hs.createdAt _)⟩
    rw [withSubstitutions]
    split_ifs
    · exact .absent hs.noCreation
    · exact .block ((h.creates.once (List.nodup_append.mp hfresh.nodup).1 n hn).append hs.noCreation)
        everywhere_nil

/-- The body of a loop and the increment of its counter. -/
theorem expanded_loop {cond : Expression} {stmt body : Statement} {k : String}
    (hname : nodeName fileLib "anon_var" info = .ok k) (hcomps : comps ≠ [])
    (h : Expanded (some (.var info k [])) [stmt] [body] comps vars subs) :
    Expanded varAccess [.whileStmt info cond stmt]
      [.whileStmt info cond (.block info [body, .substitution info k [] .assignVar
        (.infixOp info (.var info k []) .add (.number info 1))])]
      comps (.declaration info .var k [] true false :: vars)
      (subs ++ [.substitution info k [] .assignVar (.number info 0)]) := by
  have hnames : ((declaredNames comps) ++ (k :: declaredNames vars)).Perm
      (k :: (declaredNames comps ++ declaredNames vars)) := List.perm_middle
  have hchildren : ∀ {n : String}, Untouched n [.whileStmt info cond stmt] → Untouched n [stmt] :=
    fun h => (everywhere_singleton.mp h).2
  have hinner : Fresh (declaredNames comps ++ (k :: declaredNames vars))
      [.whileStmt info cond stmt] → (Fresh (declaredNames comps ++ declaredNames vars) [stmt]) ∧
      k ∉ declaredNames comps ∧ k ∉ declaredNames vars ∧ Untouched k [stmt] := by
    intro hf
    obtain ⟨hk, hnodup⟩ := List.nodup_cons.mp (hnames.nodup_iff.mp hf.nodup)
    refine ⟨⟨hnodup, fun n hn => ?_⟩, fun hm => hk (List.mem_append_left _ hm),
      fun hm => hk (List.mem_append_right _ hm), ?_⟩
    · exact hchildren (hf.untouched n (hnames.mem_iff.mpr (List.mem_cons_of_mem _ hn)))
    · exact hchildren (hf.untouched k (hnames.mem_iff.mpr List.mem_cons_self))
  have hincrement : IsIncrement k (.substitution info k [] .assignVar
      (.infixOp info (.var info k []) .add (.number info 1))) := ⟨_, _, _, _, rfl⟩
  have hbody : ∀ {Q : Statement → Prop}, (∀ cond stmt, Q (.whileStmt info cond stmt)) →
      (∀ stmts, Q (.block info stmts)) → Everywhere Q [body] →
      Q (.substitution info k [] .assignVar
        (.infixOp info (.var info k []) .add (.number info 1))) →
      Everywhere Q [.whileStmt info cond (.block info [body, .substitution info k [] .assignVar
        (.infixOp info (.var info k []) .add (.number info 1))])] := by
    intro Q hwhile hblock hb hstep
    refine everywhere_singleton.mpr ⟨hwhile _ _, everywhere_singleton.mpr ⟨hblock _, ?_⟩⟩
    exact everywhere_cons.mpr ⟨everywhere_singleton.mp hb, everywhere_leaf rfl hstep⟩
  refine ⟨?_, ?_, ?_, ?_, ?_, ?_, ?_, ?_⟩
  · rw [nodeStartsOfEach_singleton]
    have hbodyNames := h.names
    rw [nodeStartsOfEach_singleton] at hbodyNames
    refine ((NamesFrom.cons hname hbodyNames).perm hnames).mono ?_
    exact ((List.sublist_append_right _ _).cons_cons _).subperm
  · intro d hd
    rcases List.mem_append.mp hd with hd | hd
    · exact h.declarations d (List.mem_append_left _ hd)
    · rcases List.mem_cons.mp hd with rfl | hd
      · rfl
      · exact h.declarations d (List.mem_append_right _ hd)
  · exact fun hnil => absurd hnil hcomps
  · intro s hs
    rcases List.mem_append.mp hs with hs | hs
    · obtain ⟨k', hk', hzero⟩ := h.zeroing s hs
      exact ⟨k', List.mem_cons_of_mem _ hk', hzero⟩
    · rw [List.mem_singleton.mp hs]
      exact ⟨k, List.mem_cons_self, _, _, rfl⟩
  · intro k' hk'
    rcases List.mem_cons.mp hk' with rfl | hk'
    · exact ⟨_, List.mem_append_right _ (List.mem_singleton.mpr rfl), _, _, rfl⟩
    · obtain ⟨s, hs, hzero⟩ := h.zeroed k' hk'
      exact ⟨s, List.mem_append_left _ hs, hzero⟩
  · intro n hc hv hs
    have hne : n ≠ k ∧ n ∉ declaredNames vars := by
      refine ⟨fun heq => hv ?_, fun hm => hv (List.mem_cons_of_mem _ hm)⟩
      rw [heq]
      exact List.mem_cons_self
    refine hbody (fun _ _ => List.not_mem_nil) (fun _ => List.not_mem_nil)
      (h.untouched n hc hne.2 (hchildren hs)) ?_
    exact fun hm => hne.1 (List.mem_singleton.mp hm)
  · intro hf n hn
    obtain ⟨hfresh, hkc, hkv, -⟩ := hinner hf
    have hne : n ≠ k := by
      intro heq
      rw [heq] at hn
      exact hkc hn
    have hstep : ∀ {access : List Access}, CreatedAt n access (.substitution info k [] .assignVar
        (.infixOp info (.var info k []) .add (.number info 1))) :=
      fun hc => absurd (List.mem_singleton.mp hc.2) hne
    have hwrap : ∀ {access : List Access}, Everywhere (CreatedAt n access) [body] →
        Everywhere (CreatedAt n access) [.whileStmt info cond (.block info [body,
          .substitution info k [] .assignVar
            (.infixOp info (.var info k []) .add (.number info 1))])] :=
      fun hat => hbody (fun _ _ hc => absurd hc.2 List.not_mem_nil)
        (fun _ hc => absurd hc.2 List.not_mem_nil) hat hstep
    right
    rcases h.component hfresh n hn with ⟨honce, hat⟩ | ⟨k', hk', hloop, info', hat⟩
    · refine ⟨k, List.mem_cons_self, ?_, info, hwrap hat⟩
      intro b hb
      rw [List.mem_singleton.mp hb]
      refine .node (fun hc => absurd hc.2 List.not_mem_nil) fun c hc => ?_
      rw [List.mem_singleton.mp hc]
      exact .body honce hincrement
    · refine ⟨k', List.mem_cons_of_mem _ hk', ?_, info', hwrap hat⟩
      intro b hb
      rw [List.mem_singleton.mp hb]
      refine .node (fun hc => absurd hc.2 List.not_mem_nil) fun c hc => ?_
      rw [List.mem_singleton.mp hc]
      refine .node (fun hc => absurd hc.2 List.not_mem_nil) fun c hc => ?_
      rcases List.mem_cons.mp hc with rfl | hc
      · exact hloop _ List.mem_cons_self
      · rw [List.mem_singleton.mp hc]
        exact inLoop_of_noCreation (hincrement.noCreation hne)
  · intro hf k' hk'
    obtain ⟨hfresh, hkc, hkv, hstmt⟩ := hinner hf
    have hcounts : Everywhere (CountsUp k') [body] := by
      rcases List.mem_cons.mp hk' with rfl | hk'
      · exact (h.untouched _ hkc hkv hstmt).countsUp
      · exact h.counter hfresh k' hk'
    refine hbody (fun _ _ hm => absurd hm List.not_mem_nil) (fun _ hm => absurd hm List.not_mem_nil)
      hcounts fun hm => ?_
    rw [List.mem_singleton.mp hm]
    exact hincrement

/-- A loop without anonymous components. -/
theorem expanded_quietLoop {access : Option Expression} {cond : Expression} {stmt body : Statement}
    (h : Expanded access [stmt] [body] [] vars subs) :
    Expanded varAccess [.whileStmt info cond stmt] [.whileStmt info cond body] [] [] [] := by
  have hvars := h.noCounters rfl
  subst hvars
  refine ⟨.nil, fun _ h => absurd h List.not_mem_nil, fun _ => rfl,
    fun _ h => absurd h List.not_mem_nil, fun _ h => absurd h List.not_mem_nil, ?_,
    fun _ _ h => absurd h List.not_mem_nil, fun _ _ h => absurd h List.not_mem_nil⟩
  intro n hc hv hs
  exact everywhere_singleton.mpr
    ⟨List.not_mem_nil, h.untouched n hc hv (everywhere_singleton.mp hs).2⟩

theorem expanded_statements
    (ih : ∀ s ∈ stmts, ∀ u, removeAnonymousFromStatement templates fileLib varAccess s = .ok u → Expanded varAccess [s] [u.body] u.initComponents u.initVariables u.substitutions)
    {result : List Statement × List Statement × List Statement × List Statement}
    (h : removeAnonymousFromStatements templates fileLib varAccess stmts = .ok result) :
    Expanded varAccess stmts result.1 result.2.1 result.2.2.1 result.2.2.2 := by
  induction stmts generalizing result with
  | nil =>
    cases h
    exact expanded_unchanged []
  | cons s stmts ihl =>
    obtain ⟨u, hu, h⟩ := bind_eq_ok h
    obtain ⟨rest, hrest, h⟩ := bind_eq_ok h
    cases h
    exact (ih s List.mem_cons_self u hu).append
      (ihl (fun s hs => ih s (List.mem_cons_of_mem _ hs)) hrest)

theorem once_of_cons (h : Once n (s :: stmts)) : Once n [s] ∧ Once n stmts := by
  rcases once_cons h with ⟨hs, hrest⟩ | ⟨hin, hrest⟩
  · exact ⟨.absent hs, hrest⟩
  · refine ⟨?_, .absent hrest⟩
    cases s with
    | substitution => exact .substitution everywhere_nil
    | block => exact .block hin everywhere_nil
    | initializationBlock => exact .initializationBlock hin everywhere_nil
    | ifThenElse => exact .ifThenElse hin.1 hin.2 everywhere_nil
    | _ => exact hin.elim

/-- The expansion of any statement. -/
theorem expanded_statement (s : Statement) :
    ∀ varAccess u, removeAnonymousFromStatement templates fileLib varAccess s = .ok u →
      Expanded varAccess [s] [u.body] u.initComponents u.initVariables u.substitutions := by
  induction s using Statement.children_induction with
  | step s ih =>
    intro varAccess u h
    cases s with
    | multSubstitution info lhe op rhe =>
      obtain ⟨r, hexp, h⟩ := bind_eq_ok h
      cases h
      have hexpanded : Expanded varAccess [.multSubstitution info lhe op rhe]
          [(withSubstitutions info r (.multSubstitution info lhe op)).body] r.initComponents [] [] :=
        expanded_withSubstitutions (generated_expression rhe r hexp)
          (List.sublist_append_right _ _).subperm (fun _ => rfl) (fun _ => rfl)
      rw [withSubstitutions] at hexpanded ⊢
      split_ifs at hexpanded ⊢
      · exact hexpanded
      · exact hexpanded
    | substitution info var access op rhe =>
      obtain ⟨r, hexp, h⟩ := bind_eq_ok h
      cases h
      have hexpanded : Expanded varAccess [.substitution info var access op rhe]
          [(withSubstitutions info r (.substitution info var access op)).body] r.initComponents [] [] :=
        expanded_withSubstitutions (generated_expression rhe r hexp)
          (List.sublist_append_right _ _).subperm (fun _ => rfl) (fun _ => rfl)
      rw [withSubstitutions] at hexpanded ⊢
      split_ifs at hexpanded ⊢
      · exact hexpanded
      · exact hexpanded
    | ifThenElse info cond ifCase elseCase =>
      rw [removeAnonymousFromStatement] at h
      obtain ⟨ifBody, hifBody, h⟩ := bind_eq_ok h
      have hif := ih ifCase List.mem_cons_self varAccess ifBody hifBody
      cases elseCase with
      | none =>
        cases h
        refine Expanded.wrap hif rfl ?_ fun n honce => ?_
        · show (nodeStartsOfEach [ifCase]).Subperm (componentStarts cond ++ nodeStarts ifCase)
          rw [nodeStartsOfEach_singleton]
          exact (List.sublist_append_right _ _).subperm
        · exact .ifThenElse honce (.absent everywhere_nil) everywhere_nil
      | some elseCase =>
        obtain ⟨elseBody, helseBody, h⟩ := bind_eq_ok h
        cases h
        have helse := ih elseCase (by simp [Statement.children]) varAccess elseBody helseBody
        refine Expanded.wrap (hif.append helse) rfl ?_ fun n honce => ?_
        · show (nodeStartsOfEach [ifCase, elseCase]).Subperm
            (componentStarts cond ++ (nodeStarts ifCase ++ nodeStarts elseCase))
          rw [nodeStartsOfEach, nodeStartsOfEach_singleton]
          exact (List.sublist_append_right _ _).subperm
        · obtain ⟨honceIf, honceElse⟩ := once_of_cons honce
          exact .ifThenElse honceIf honceElse everywhere_nil
    | whileStmt info cond stmt =>
      obtain ⟨name, hname, h⟩ := bind_eq_ok h
      obtain ⟨body, hbody, h⟩ := bind_eq_ok h
      have hstmt := ih stmt List.mem_cons_self _ body hbody
      dsimp only at h
      split_ifs at h with hempty
      · cases h
        rw [List.isEmpty_iff] at hempty
        rw [hempty] at hstmt ⊢
        exact expanded_quietLoop hstmt
      · cases h
        exact expanded_loop hname (fun hnil => hempty (List.isEmpty_iff.mpr hnil)) hstmt
    | initializationBlock info xtype initializations =>
      obtain ⟨result, hresult, h⟩ := bind_eq_ok h
      cases h
      refine Expanded.wrap (expanded_statements (fun s hs => ih s hs varAccess) hresult) rfl
        (Subperm.refl _) fun n honce => ?_
      exact .initializationBlock honce everywhere_nil
    | block info stmts =>
      obtain ⟨result, hresult, h⟩ := bind_eq_ok h
      cases h
      refine Expanded.wrap (expanded_statements (fun s hs => ih s hs varAccess) hresult) rfl
        (Subperm.refl _) fun n honce => ?_
      exact .block honce everywhere_nil
    | underscoreSubstitution => cases h
    | returnStmt | declaration | constraintEquality | logCall | assert =>
      cases h
      exact expanded_unchanged _

end Circom.Parser
