import Lowering.Proofs.Shape.Visits

/-!
# Well-shaped units

A unit is well-shaped if no assertion stands directly on another one, and every
variable reference means a parameter of its method or a variable whose declaration is
completed earlier in the same method or field. The shape pass accepts these units and
returns them as they are. For any other unit it reports what is first wrong in source
order, with the span of the statement or field in which it stands.

`scan_eq_error` is the core: a scan stops exactly at the first visit that breaks the
shape.

Main statement: `Shape.pass_apply_eq_iff`.
-/

namespace Lowering

namespace Shape

/-! ## What can be wrong with a visit -/

/-- An identity that may be referred to after the given visits. -/
def InScope (known : Scope) (before : List (Span × Visit)) (id : VariableId) : Prop :=
  id ∈ known ∨ ∃ span, (span, .declared id) ∈ before

/-- A visit that breaks the shape, after the given visits. -/
inductive Breaks (known : Scope) (before : List (Span × Visit)) : Visit → Violation → Prop where
  | doubled {operand : Expr} :
      operand.isNotNull = true → Breaks known before (.node (.notNull operand)) .doubledAssertion
  | outOfScope {v : Variable} :
      ¬ InScope known before v.id → Breaks known before (.node (.varRef v)) (.outOfScope v)

/-- None of the visits breaks the shape. -/
def Clean (known : Scope) (visits : List (Span × Visit)) : Prop :=
  ∀ before span visit after violation, visits = before ++ (span, visit) :: after →
    ¬ Breaks known before visit violation

/-- The fault is the first that a walk over the visits comes to. -/
def FirstIn (known : Scope) (visits : List (Span × Visit)) (fault : Fault) : Prop :=
  ∃ before visit after, visits = before ++ (fault.span, visit) :: after ∧
    Breaks known before visit fault.violation ∧ Clean known before

end Shape

namespace CompilationUnit

/-- What later stages rely on. -/
structure WellShaped (u : CompilationUnit) : Prop where
  /-- No assertion stands directly on another one. -/
  single : u.Everywhere fun e => e.isDoubledAssertion = false
  /-- A variable is referred to in the method that it is a parameter of, or after its
  declaration in the same method or field. -/
  resolved : ∀ r ∈ u.regions, ∀ before span v after,
    r.visits = before ++ (span, .node (.varRef v)) :: after → Shape.InScope r.known before v.id

/-- The fault is the first of the unit: nothing is wrong with the fields and methods
before the one in which it stands, nor with what comes before it there. -/
def FirstFault (u : CompilationUnit) (fault : Shape.Fault) : Prop :=
  ∃ earlier r later, u.regions = earlier ++ r :: later ∧
    (∀ s ∈ earlier, Shape.Clean s.known s.visits) ∧ Shape.FirstIn r.known r.visits fault

end CompilationUnit

namespace Shape

/-! ## Scans -/

/-- The scope after a visit. -/
def extend (scope : Scope) : Visit → Scope
  | .declared id => id :: scope
  | .node _ => scope

section

variable {known : Scope} {span : Span} {first visit : Visit} {rest before : List (Span × Visit)}
  {violation : Violation} {fault : Fault}

/-- A declaration can be counted among the visits or as known from the start. With this the scans
below need no history. -/
theorem inScope_cons {id : VariableId} :
    InScope known ((span, first) :: before) id ↔ InScope (extend known first) before id := by
  cases first with
  | node e => simp [InScope, extend]
  | declared other =>
    simp only [InScope, extend, List.mem_cons, Prod.mk.injEq, Visit.declared.injEq]
    constructor
    -- Known from the start, declared by the first visit, or declared later.
    · rintro (hknown | ⟨_, ⟨_, rfl⟩ | hbefore⟩)
      · exact .inl (.inr hknown)
      · exact .inl (.inl rfl)
      · exact .inr ⟨_, hbefore⟩
    · rintro ((rfl | hknown) | ⟨other, hbefore⟩)
      · exact .inr ⟨span, .inl ⟨rfl, rfl⟩⟩
      · exact .inl hknown
      · exact .inr ⟨other, .inr hbefore⟩

/-- A visit breaks the shape after others exactly if it does in the scope that they have left. -/
theorem breaks_cons :
    Breaks known ((span, first) :: before) visit violation ↔
      Breaks (extend known first) before visit violation := by
  constructor
  · intro h
    cases h with
    | doubled hoperand => exact .doubled hoperand
    | outOfScope hscope => exact .outOfScope (mt inScope_cons.mpr hscope)
  · intro h
    cases h with
    | doubled hoperand => exact .doubled hoperand
    | outOfScope hscope => exact .outOfScope (mt inScope_cons.mp hscope)

/-- At the start of a scan, a node breaks the shape exactly if there is an objection. -/
theorem breaks_nil_iff {e : Expr} :
    Breaks known [] (.node e) violation ↔ objection known e = some violation := by
  constructor
  · intro h
    cases h with
    | doubled hoperand => simp [objection, hoperand]
    | outOfScope hscope =>
      have hknown := mt Or.inl hscope
      simp [objection, hknown]
  · intro h
    -- The two kinds of violation come from two kinds of nodes.
    unfold objection at h
    split at h
    · split at h
      · cases h
      · cases h
        exact .outOfScope (by simpa [InScope] using ‹_›)
    · split at h
      · cases h
        exact .doubled ‹_›
      · cases h
    · cases h

theorem clean_nil : Clean known [] := by
  intro before span visit after violation hsplit
  simp at hsplit

/-- Nothing is wrong with a list of visits if nothing is wrong with the first, and nothing with the
rest in the scope after it. -/
theorem clean_cons :
    Clean known ((span, first) :: rest) ↔
      (∀ violation, ¬ Breaks known [] first violation) ∧ Clean (extend known first) rest := by
  constructor
  · intro h
    refine ⟨fun violation => h [] span first rest violation rfl, ?_⟩
    rintro before span' visit after violation rfl hbreaks
    exact h ((span, first) :: before) span' visit after violation rfl (breaks_cons.mpr hbreaks)
  · rintro ⟨hfirst, hrest⟩ before span' visit after violation hsplit hbreaks
    -- The visit in question is the first, or one of the rest.
    cases before with
    | nil =>
      cases hsplit
      exact hfirst violation hbreaks
    | cons head before =>
      cases hsplit
      exact hrest before span' visit after violation rfl (breaks_cons.mp hbreaks)

/-- The first fault is at the first visit, or this one is fine and it is the first fault of the
rest. -/
theorem firstIn_cons :
    FirstIn known ((span, first) :: rest) fault ↔
      (Breaks known [] first fault.violation ∧ span = fault.span) ∨
        ((∀ violation, ¬ Breaks known [] first violation) ∧
          FirstIn (extend known first) rest fault) := by
  constructor
  · -- The fault stands at the first visit exactly if nothing comes before it.
    rintro ⟨before, visit, after, hsplit, hbreaks, hclean⟩
    cases before with
    | nil =>
      cases hsplit
      exact .inl ⟨hbreaks, rfl⟩
    | cons head before =>
      cases hsplit
      obtain ⟨hfirst, hbefore⟩ := clean_cons.mp hclean
      exact .inr ⟨hfirst, before, visit, after, rfl, breaks_cons.mp hbreaks, hbefore⟩
  · rintro (⟨hbreaks, rfl⟩ | ⟨hfirst, before, visit, after, rfl, hbreaks, hclean⟩)
    · exact ⟨[], first, rest, rfl, hbreaks, clean_nil⟩
    · exact ⟨(span, first) :: before, visit, after, rfl, breaks_cons.mpr hbreaks,
        clean_cons.mpr ⟨hfirst, hclean⟩⟩

/-- A visit can be wrong in one way only, so that a fault is determined by its place. -/
theorem Breaks.unique {violation' : Violation} (h : Breaks known before visit violation)
    (h' : Breaks known before visit violation') : violation = violation' := by
  cases h <;> cases h' <;> rfl

/-- A scan stops at its first visit if this breaks the shape, and else goes on in the
scope after it. -/
theorem scan_cons (known : Scope) (span : Span) (first : Visit) (rest : List (Span × Visit)) :
    (∃ violation, Breaks known [] first violation ∧
        scan ((span, first) :: rest) known = .error { violation, span }) ∨
      ((∀ violation, ¬ Breaks known [] first violation) ∧
        scan ((span, first) :: rest) known = scan rest (extend known first)) := by
  cases first with
  -- There is nothing wrong with a declaration as such, even of a variable that is declared already.
  | declared id =>
    right
    refine ⟨fun violation h => ?_, rfl⟩
    cases h
  | node e =>
    cases hobjection : objection known e with
    | some violation =>
      left
      refine ⟨violation, breaks_nil_iff.mpr hobjection, ?_⟩
      simp [scan, hobjection]
    | none =>
      right
      refine ⟨fun violation h => ?_, ?_⟩
      · rw [breaks_nil_iff, hobjection] at h
        cases h
      · simp [scan, hobjection, extend]

end

/-- A scan comes to its end exactly if nothing is wrong with the visits. -/
theorem scan_eq_ok {known : Scope} {visits : List (Span × Visit)} :
    (∃ S, scan visits known = .ok S) ↔ Clean known visits := by
  -- Declarations extend the scope on the way, so the induction is for every scope.
  induction visits generalizing known with
  | nil => exact ⟨fun _ => clean_nil, fun _ => ⟨known, rfl⟩⟩
  | cons head rest ih =>
    obtain ⟨span, first⟩ := head
    rw [clean_cons]
    rcases scan_cons known span first rest with ⟨violation, hbreaks, hscan⟩ | ⟨hfine, hscan⟩
    · rw [hscan]
      constructor
      · rintro ⟨S, h⟩
        cases h
      · rintro ⟨hfirst, _⟩
        exact absurd hbreaks (hfirst violation)
    · rw [hscan, ih]
      exact ⟨fun hrest => ⟨hfine, hrest⟩, fun h => h.2⟩

/-- A scan fails exactly with the first fault. -/
theorem scan_eq_error {known : Scope} {visits : List (Span × Visit)} {fault : Fault} :
    scan visits known = .error fault ↔ FirstIn known visits fault := by
  -- Like for success, the scope changes on the way.
  induction visits generalizing known with
  | nil =>
    constructor
    · intro h
      cases h
    · rintro ⟨before, visit, after, hsplit, _⟩
      simp at hsplit
  | cons head rest ih =>
    obtain ⟨span, first⟩ := head
    rw [firstIn_cons]
    rcases scan_cons known span first rest with ⟨violation, hbreaks, hscan⟩ | ⟨hfine, hscan⟩
    · rw [hscan]
      constructor
      · intro h
        cases h
        exact .inl ⟨hbreaks, rfl⟩
      · -- A visit breaks the shape in one way only, so the two faults are one.
        rintro (⟨hbreaks', rfl⟩ | ⟨hfirst, _⟩)
        · rw [hbreaks.unique hbreaks']
        · exact absurd hbreaks (hfirst violation)
    · rw [hscan, ih]
      constructor
      · exact fun h => .inr ⟨hfine, h⟩
      · rintro (⟨hbreaks, _⟩ | ⟨_, h⟩)
        · exact absurd hbreaks (hfine _)
        · exact h

/-! ## Units -/

/-- A field or method passes if nothing on the walk over it is wrong. -/
theorem checkRegion_eq_ok {r : Region} : checkRegion r = .ok () ↔ Clean r.known r.visits := by
  rw [← scan_eq_ok]
  unfold checkRegion
  cases scan r.visits r.known with
  | ok S => exact ⟨fun _ => ⟨S, rfl⟩, fun _ => rfl⟩
  | error fault =>
    constructor
    · intro h
      cases h
    · rintro ⟨S, h⟩
      cases h

/-- A field or method fails with the first fault on the walk over it. -/
theorem checkRegion_eq_error {r : Region} {fault : Fault} :
    checkRegion r = .error fault ↔ FirstIn r.known r.visits fault := by
  rw [← scan_eq_error]
  unfold checkRegion
  cases scan r.visits r.known with
  | ok S =>
    constructor
    · intro h
      cases h
    · intro h
      cases h
  | error fault' =>
    constructor
    · intro h
      cases h
      rfl
    · intro h
      cases h
      rfl

/-- Checks one after the other fail with the first that does. -/
theorem forM_eq_error {α : Type} {check : α → Except Fault Unit} {as : List α} {fault : Fault} :
    as.forM check = .error fault ↔
      ∃ earlier a later, as = earlier ++ a :: later ∧
        (∀ b ∈ earlier, check b = .ok ()) ∧ check a = .error fault := by
  induction as with
  | nil =>
    constructor
    · intro h
      cases h
    · rintro ⟨earlier, a, later, hsplit, _⟩
      simp at hsplit
  | cons first rest ih =>
    have hcons : (first :: rest).forM check = check first >>= fun _ => rest.forM check := rfl
    rw [hcons]
    cases hfirst : check first with
    | error fault' =>
      constructor
      · intro h
        cases h
        exact ⟨[], first, rest, rfl, by simp, hfirst⟩
      · rintro ⟨earlier, a, later, hsplit, hearlier, ha⟩
        cases earlier with
        | nil =>
          cases hsplit
          exact hfirst.symm.trans ha
        -- If there were an element before it, this one would be the first, and would have passed.
        | cons b earlier =>
          cases hsplit
          rw [hearlier first List.mem_cons_self] at hfirst
          cases hfirst
    | ok _ =>
      show rest.forM check = _ ↔ _
      rw [ih]
      constructor
      · rintro ⟨earlier, a, later, rfl, hearlier, ha⟩
        exact ⟨first :: earlier, a, later, rfl, List.forall_mem_cons.mpr ⟨hfirst, hearlier⟩, ha⟩
      · rintro ⟨earlier, a, later, hsplit, hearlier, ha⟩
        cases earlier with
        | nil =>
          cases hsplit
          rw [ha] at hfirst
          cases hfirst
        | cons b earlier =>
          cases hsplit
          exact ⟨earlier, a, later, rfl, fun b hb => hearlier b (List.mem_cons_of_mem _ hb), ha⟩

/-- The check fails exactly with the first fault of the unit. -/
theorem checkShape_eq_error {u : CompilationUnit} {fault : Fault} :
    u.checkShape = .error fault ↔ u.FirstFault fault := by
  rw [checkShape_eq, forM_eq_error]
  simp only [checkRegion_eq_ok, checkRegion_eq_error]
  rfl

theorem exists_node_mem_map {span : Span} {x : Expr} {es : List Expr} :
    (∃ span', (span', .node x) ∈ (es.flatMap Expr.visits).map (Prod.mk span)) ↔
      ∃ e ∈ es, x ∈ e.subexpressions := by
  simp [Expr.node_mem_visits]

/-- A walk over the fields and methods comes to the expressions of the unit. -/
theorem node_mem_regions {u : CompilationUnit} {x : Expr} :
    (∃ r ∈ u.regions, ∃ span, (span, .node x) ∈ r.visits) ↔
      ∃ e ∈ u.expressions, x ∈ e.subexpressions := by
  -- Both sides are flat maps over types, then fields or methods, then statements.
  constructor
  · rintro ⟨r, hr, span, hx⟩
    obtain ⟨d, hd, hr⟩ := List.mem_flatMap.mp hr
    rcases List.mem_append.mp hr with hr | hr
    · obtain ⟨f, hf, rfl⟩ := List.mem_map.mp hr
      obtain ⟨e, he, hx⟩ := exists_node_mem_map.mp ⟨span, hx⟩
      refine ⟨e, List.mem_flatMap.mpr ⟨d, hd, List.mem_append_left _ ?_⟩, hx⟩
      exact List.mem_flatMap.mpr ⟨f, hf, he⟩
    · obtain ⟨m, hm, rfl⟩ := List.mem_map.mp hr
      obtain ⟨s, hs, hx⟩ := List.mem_flatMap.mp hx
      obtain ⟨e, he, hx⟩ := exists_node_mem_map.mp ⟨span, hx⟩
      refine ⟨e, List.mem_flatMap.mpr ⟨d, hd, List.mem_append_right _ ?_⟩, hx⟩
      exact List.mem_flatMap.mpr ⟨m, hm, List.mem_flatMap.mpr ⟨s, hs, he⟩⟩
  · rintro ⟨e, he, hx⟩
    obtain ⟨d, hd, he⟩ := List.mem_flatMap.mp he
    rcases List.mem_append.mp he with he | he
    · obtain ⟨f, hf, he⟩ := List.mem_flatMap.mp he
      refine ⟨f.region, ?_, exists_node_mem_map.mpr ⟨e, he, hx⟩⟩
      exact List.mem_flatMap.mpr ⟨d, hd, List.mem_append_left _ (List.mem_map_of_mem hf)⟩
    · obtain ⟨m, hm, he⟩ := List.mem_flatMap.mp he
      obtain ⟨s, hs, he⟩ := List.mem_flatMap.mp he
      obtain ⟨span, hvisit⟩ := exists_node_mem_map.mpr ⟨e, he, hx⟩
      refine ⟨m.region, ?_, span, List.mem_flatMap.mpr ⟨s, hs, hvisit⟩⟩
      exact List.mem_flatMap.mpr ⟨d, hd, List.mem_append_right _ (List.mem_map_of_mem hm)⟩

/-- What it means that nothing is wrong, for each kind of violation. -/
theorem clean_iff {known : Scope} {visits : List (Span × Visit)} :
    Clean known visits ↔
      (∀ span x, (span, .node x) ∈ visits → x.isDoubledAssertion = false) ∧
        ∀ before span v after, visits = before ++ (span, .node (.varRef v)) :: after →
          InScope known before v.id := by
  constructor
  · intro h
    constructor
    · intro span x hx
      -- An assertion is doubled wherever it stands, so the visits before it do not matter.
      obtain ⟨before, after, hsplit⟩ := List.append_of_mem hx
      cases x with
      | notNull operand =>
        apply Bool.eq_false_iff.mpr
        intro hdoubled
        exact h before span _ after _ hsplit (.doubled hdoubled)
      | _ => rfl
    · intro before span v after hsplit
      by_contra hscope
      exact h before span _ after _ hsplit (.outOfScope hscope)
  · rintro ⟨hsingle, hresolved⟩ before span visit after violation hsplit hbreaks
    cases hbreaks with
    | doubled hoperand =>
      have hfalse := hsingle span _ (hsplit ▸ List.mem_append_right _ List.mem_cons_self)
      rw [Expr.isDoubledAssertion, hoperand] at hfalse
      cases hfalse
    | outOfScope hscope => exact hscope (hresolved before span _ after hsplit)

/-- The check accepts exactly the well-shaped units. -/
theorem checkShape_eq_ok {u : CompilationUnit} : u.checkShape = .ok () ↔ u.WellShaped := by
  rw [checkShape_eq, forM_eq_ok]
  simp only [checkRegion_eq_ok, clean_iff]
  constructor
  · intro h
    constructor
    · intro e he x hx
      -- The property of all nodes is read from the walks, which come to all of them.
      obtain ⟨r, hr, span, hmem⟩ := node_mem_regions.mpr ⟨e, he, hx⟩
      exact (h r hr).1 span x hmem
    · exact fun r hr => (h r hr).2
  · intro h r hr
    refine ⟨fun span x hx => ?_, h.resolved r hr⟩
    obtain ⟨e, he, hmem⟩ := node_mem_regions.mp ⟨r, hr, span, hx⟩
    exact h.single e he x hmem

/-- The pass returns a unit as it is if the unit is well-shaped. Otherwise it fails with
the message of the first violation in source order, and with the span of the
innermost statement around it, or of the field in whose initializer it stands. -/
theorem pass_apply_eq_iff (u : CompilationUnit) (context : PassContext)
    (outcome : Except PassError CompilationUnit × PassContext) :
    pass.apply u context = outcome ↔
      (u.WellShaped ∧ outcome = (.ok u, context)) ∨
        ∃ fault, u.FirstFault fault ∧ outcome = (.error (.inconsistent
          { pass := passName
            message := fault.violation.message
            span := fault.span }), context) := by
  simp only [← checkShape_eq_ok, ← checkShape_eq_error]
  cases hcheck : u.checkShape with
  | ok _ =>
    rw [pass_apply_eq_ok.mpr ⟨hcheck, rfl, rfl⟩]
    constructor
    · rintro rfl
      exact .inl ⟨rfl, rfl⟩
    · rintro (⟨_, rfl⟩ | ⟨fault, heq, _⟩)
      · rfl
      · cases heq
  | error fault =>
    rw [pass_apply_of_fault hcheck]
    constructor
    · rintro rfl
      exact .inr ⟨fault, rfl, rfl⟩
    -- There is one first fault, which the check has returned.
    · rintro (⟨heq, _⟩ | ⟨fault', heq, rfl⟩)
      · cases heq
      · cases heq
        rfl

end Shape

end Lowering
