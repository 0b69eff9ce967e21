import Lowering.Proofs.Layout.Walk

/-!
# What a query answers

A query first walks up to a class without superclass or to a class whose layout is
kept, and then lays out the classes it has met. `layoutOf_outcome` says that its answer
is the `outcome` of the complete walk from the name, as long as every kept layout is the
one that such a walk leads to. `layoutOf_unknown_iff`, `layoutOf_cyclic_iff`,
`layoutOf_fault_iff` and `layoutOf_ok_iff` read the four kinds of answers off the walk.
-/

namespace Lowering

/-! ## What a class rests on -/

namespace ClassSummary

/-- A class with a superclass rests on something that `R` relates to the name of the superclass, and
a class without superclass on nothing. What is meant is a layout, and `R` says where it is found. -/
def RestsOn {α : Type} (c : ClassSummary) (R : String → α → Prop) : Option α → Prop
  | none => c.superName = none
  | some above => ∃ superName, c.superName = some superName ∧ R superName above

/-- What holds of the superclass's part in one place may be known of it in another. -/
theorem RestsOn.map {α β : Type} {c : ClassSummary} {R : String → α → Prop}
    {S : String → β → Prop} {above : Option α} (h : c.RestsOn R above) {f : α → β}
    (himp : ∀ name a, R name a → S name (f a)) : c.RestsOn S (above.map f) := by
  cases above with
  | none => exact h
  | some a =>
    obtain ⟨superName, hsuper, ha⟩ := h
    exact ⟨superName, hsuper, himp superName a ha⟩

end ClassSummary

namespace LayoutRegistry

/-! ## The walk that a query makes -/

namespace Ancestry

/-- The classes that have to be laid out, nearest first. -/
def classes : Ancestry → List ClassSummary
  | .kept _ _ => []
  | .root c => [c]
  | .derived c parent => c :: parent.classes

/-- The kept layout that they are laid out on, with the name of its class. -/
def top : Ancestry → Option (String × KeptLayout)
  | .kept name layout => some (name, layout)
  | .root _ => none
  | .derived _ parent => parent.top

end Ancestry

variable {r : LayoutRegistry} {name : String}

/-- A chain of superclasses as a query finds it: the layouts of its classes are not
kept, up to the first one that is. -/
inductive Found (r : LayoutRegistry) : String → Ancestry → Prop where
  | kept {name : String} {layout : KeptLayout} (hlookup : r.kept.lookup name = some layout) :
      Found r name (.kept name layout)
  | root {name : String} {c : ClassSummary} (hmiss : r.kept.lookup name = none)
      (hknown : r.find? name = some c) (htop : c.superName = none) : Found r name (.root c)
  | derived {name superName : String} {c : ClassSummary} {parent : Ancestry}
      (hmiss : r.kept.lookup name = none) (hknown : r.find? name = some c)
      (hsuper : c.superName = some superName) (habove : Found r superName parent)
      (hnew : name ∉ walkedNames parent.classes) : Found r name (.derived c parent)

/-- The chain that a query finds is a walk, up to the name of the class whose layout is kept. -/
theorem Found.walk {chain : Ancestry} (hfound : Found r name chain) :
    Walk r name chain.classes (chain.top.map (·.1)) := by
  induction hfound with
  | kept => exact .here _
  | root hmiss hknown htop => exact .root hknown htop
  | derived hmiss hknown hsuper _ _ ih => exact .up hknown hsuper ih

/-- What is at the top of the chain is kept in the registry. -/
theorem Found.hit {chain : Ancestry} (hfound : Found r name chain) {entry : String × KeptLayout}
    (htop : chain.top = some entry) : r.kept.lookup entry.1 = some entry.2 := by
  induction hfound with
  | kept hlookup =>
    cases htop
    exact hlookup
  | root => cases htop
  | derived _ _ _ _ _ ih => exact ih htop

/-- A query that finds its way up meets no name that it has met before. -/
theorem ancestry_eq_ok (hnamed : r.WellNamed) {before : List String} {chain : Ancestry}
    (hended : r.ancestry before name = .ok chain) :
    Found r name chain ∧ ∀ met ∈ walkedNames chain.classes, met ∉ before := by
  -- The cases are those of the recursion: kept, met before, unknown, without superclass, and one
  -- step further up.
  fun_induction ancestry r before name generalizing chain with
  | case1 before name layout hlookup =>
    cases hended
    exact ⟨.kept hlookup, by simp [Ancestry.classes, walkedNames]⟩
  | case2 before name hmiss hagain => cases hended
  | case3 before name hmiss hnew hunknown => cases hended
  | case4 before name hmiss hnew c hknown htop =>
    cases hended
    refine ⟨.root hmiss hknown htop, ?_⟩
    intro met hmem
    have hown : met = name := (List.mem_singleton.mp hmem).trans (hnamed.qualifiedName hknown)
    rwa [hown]
  | case5 before name hmiss hnew c hknown superName hsuper hfewer ih =>
    cases hup : r.ancestry (before ++ [name]) superName with
    | error e => simp [hup, bind, Except.bind] at hended
    | ok parent =>
      simp only [hup, bind, Except.bind, pure, Except.pure, Except.ok.injEq] at hended
      subst hended
      obtain ⟨habove, hothers⟩ := ih hup
      -- This name has been added to those met before, so the walk from the superclass avoids it.
      refine ⟨.derived hmiss hknown hsuper habove fun hagain => hothers name hagain (by simp), ?_⟩
      intro met hmem
      rcases List.mem_cons.mp hmem with hthis | hfurther
      · rwa [show met = name from hthis.trans (hnamed.qualifiedName hknown)]
      · exact fun hearlier => hothers met hfurther (List.mem_append_left _ hearlier)

/-- A query that finds no way up has walked to a name that is not registered, or back
to a name that it has met. -/
theorem ancestry_eq_error (hnamed : r.WellNamed) {before : List String} {e : LayoutError}
    (hdistinct : before.Nodup) (hfailed : r.ancestry before name = .error e) :
    ∃ walked stop, Walk r name walked (some stop) ∧ (before ++ walkedNames walked).Nodup ∧
      ((r.find? stop = none ∧ e = .unknownType stop) ∨
        (stop ∈ before ++ walkedNames walked ∧
          e = .cyclicInheritance (before ++ walkedNames walked ++ [stop]))) := by
  fun_induction ancestry r before name with
  | case1 before name layout hlookup => cases hfailed
  -- The walk is back at a name that it has met: the names end with it.
  | case2 before name hmiss hmet =>
    cases hfailed
    exact ⟨[], name, .here name, by simpa [walkedNames] using hdistinct,
      .inr ⟨by simp [hmet], by simp [walkedNames]⟩⟩
  | case3 before name hmiss hnew hunknown =>
    cases hfailed
    exact ⟨[], name, .here name, by simpa [walkedNames] using hdistinct, .inl ⟨hunknown, rfl⟩⟩
  | case4 before name hmiss hnew c hknown htop => cases hfailed
  | case5 before name hmiss hnew c hknown superName hsuper hfewer ih =>
    cases hup : r.ancestry (before ++ [name]) superName with
    | ok parent => simp [hup, bind, Except.bind, pure, Except.pure] at hfailed
    | error e' =>
      simp only [hup, bind, Except.bind, Except.error.injEq] at hfailed
      subst hfailed
      -- The walk has not met this name, or it would have stopped here.
      have hlonger : (before ++ [name]).Nodup := by
        rw [← List.concat_eq_append, List.nodup_concat]
        exact ⟨hnew, hdistinct⟩
      -- The names met so far grow by this one, so the walk from here starts with its class.
      have hown : ∀ walked,
          before ++ [name] ++ walkedNames walked = before ++ walkedNames (c :: walked) := by
        intro walked
        simp [walkedNames, hnamed.qualifiedName hknown]
      obtain ⟨walked, stop, hwalk, hmet, hending⟩ := ih hlonger hup
      rw [hown] at hmet hending
      exact ⟨c :: walked, stop, .up hknown hsuper hwalk, hmet, hending⟩

/-! ## What a walk leads to -/

/-- What a complete walk leads to: the layout of the chain of its classes, or why
there is none. -/
def outcome (walked : List ClassSummary) : Option String → Except LayoutError (Option TypeLayout)
  | none => TypeLayout.ofChain walked.reverse
  | some stop =>
    .error (if stop ∈ walkedNames walked then .cyclicInheritance (walkedNames walked ++ [stop])
      else .unknownType stop)

/-- A walk that comes back to one of its names leads to a report of the cycle. -/
theorem outcome_of_met {walked : List ClassSummary} {stop : String}
    (hmet : stop ∈ walkedNames walked) :
    outcome walked (some stop) = .error (.cyclicInheritance (walkedNames walked ++ [stop])) := by
  rw [outcome, if_pos hmet]

/-- A name that is not registered has not been walked past, so that it is reported as unknown and
not as a cycle. -/
theorem outcome_of_unknown (hnamed : r.WellNamed) {walked : List ClassSummary} {stop : String}
    (hwalk : Walk r name walked (some stop)) (hunknown : r.find? stop = none) :
    outcome walked (some stop) = .error (.unknownType stop) := by
  refine (congrArg Except.error (if_neg fun hmet => ?_))
  -- All names that have been walked past are registered.
  obtain ⟨c, hmem, rfl⟩ := List.mem_map.mp hmet
  rw [hwalk.find?_of_mem hnamed hmem] at hunknown
  cases hunknown

/-- What is computed is the layout of the class on top of its superclass's. -/
theorem compute_layout (r : LayoutRegistry) (c : ClassSummary) (parent : Option KeptLayout) :
    (r.compute c parent).1.map (fun kept => some kept.layout) =
      (TypeLayout.create c (parent.map (·.layout))).map some := by
  rw [compute]
  cases TypeLayout.create c (parent.map (·.layout)) <;> rfl

/-- Laying out a chain of superclasses extends the layout at its top. -/
theorem layOut_layout (r : LayoutRegistry) (chain : Ancestry) :
    (r.layOut chain).1.result.map (fun kept => some kept.layout) =
      TypeLayout.extend (chain.top.map (·.2.layout)) chain.classes.reverse := by
  induction chain with
  | kept name layout => rfl
  | root c =>
    have hstart : TypeLayout.extend none [] = .ok none := rfl
    exact (compute_layout r c none).trans (TypeLayout.extend_concat hstart c).symm
  -- The superclass is laid out first. If this fails, so does the class.
  | derived c parent ih =>
    rcases hupper : r.layOut parent with ⟨⟨result, log⟩, r'⟩
    rw [hupper] at ih
    simp only [layOut, hupper, Ancestry.top, Ancestry.classes, List.reverse_cons]
    cases result with
    | error e => exact (TypeLayout.extend_append_of_error ih.symm [c]).symm
    | ok above =>
      exact (compute_layout r' c (some above)).trans (TypeLayout.extend_concat ih.symm c).symm

/-! ## What a query answers -/

/-- The layout is the one that the walk from the class of the name leads to. -/
def LaidOut (r : LayoutRegistry) (name : String) (layout : TypeLayout) : Prop :=
  ∃ walked, Walk r name walked none ∧ TypeLayout.ofChain walked.reverse = .ok (some layout)

/-- Every kept layout is the one that the walk from its class leads to. -/
def Current (r : LayoutRegistry) : Prop :=
  ∀ name kept, r.kept.lookup name = some kept → r.LaidOut name kept.layout

/-- The walk from a class leads to what the class gets on top of its superclass's layout. -/
theorem walk_of_restsOn {c : ClassSummary} {above : Option TypeLayout}
    (hrests : c.RestsOn r.LaidOut above) (hknown : r.find? name = some c) :
    ∃ walked, Walk r name walked none ∧
      TypeLayout.ofChain walked.reverse = (TypeLayout.create c above).map some := by
  cases above with
  | none =>
    have hstart : TypeLayout.ofChain [] = .ok none := rfl
    exact ⟨[c], .root hknown hrests, TypeLayout.extend_concat hstart c⟩
  -- One step up, and from there the walk of the superclass.
  | some layout =>
    obtain ⟨superName, hsuper, walked, hwalk, hupper⟩ := hrests
    refine ⟨c :: walked, .up hknown hsuper hwalk, ?_⟩
    rw [List.reverse_cons]
    exact TypeLayout.extend_concat hupper c

/-- A query is answered by what its complete walk leads to, whichever layouts are
kept. -/
theorem layoutOf_outcome (hnamed : r.WellNamed) (hcurrent : r.Current) (name : String) :
    ∃ walked next, Walk r name walked next ∧ Complete r walked next ∧
      (r.layoutOf name).1.result.map (fun kept => some kept.layout) = outcome walked next := by
  rw [layoutOf]
  cases hfound : r.ancestry [] name with
  | error e =>
    -- A query that fails has come to no kept layout, so it has made the complete walk itself.
    obtain ⟨walked, stop, hwalk, hdistinct, hending⟩ :=
      ancestry_eq_error hnamed List.nodup_nil hfound
    rcases hending with ⟨hunknown, rfl⟩ | ⟨hmet, rfl⟩
    · exact ⟨walked, some stop, hwalk, ⟨hdistinct, by simp [hunknown]⟩,
        (outcome_of_unknown hnamed hwalk hunknown).symm⟩
    · exact ⟨walked, some stop, hwalk, ⟨hdistinct, by rintro _ ⟨⟩; exact .inr hmet⟩,
        (outcome_of_met hmet).symm⟩
  | ok chain =>
    have hway := (ancestry_eq_ok hnamed hfound).1
    have hwalk := hway.walk
    have hanswer := layOut_layout r chain
    cases htop : chain.top with
    -- No kept layout was met, so the chain is all of the walk.
    | none =>
      rw [htop] at hwalk hanswer
      exact ⟨chain.classes, none, hwalk, hwalk.complete_of_stuck hnamed (by simp), hanswer⟩
    | some entry =>
      -- The walk goes on where the kept layout's own walk has led.
      obtain ⟨above, honward, hlaidOut⟩ := hcurrent entry.1 entry.2 (hway.hit htop)
      rw [htop] at hwalk hanswer
      have hwhole := hwalk.append honward
      refine ⟨chain.classes ++ above, none, hwhole, hwhole.complete_of_stuck hnamed (by simp), ?_⟩
      rw [hanswer, outcome, List.reverse_append, TypeLayout.ofChain, TypeLayout.extend_append,
        show TypeLayout.extend none above.reverse = .ok (some entry.2.layout) from hlaidOut]
      rfl

/-- The answer of a query is what any complete walk from the name leads to, since there is one
complete walk only. -/
theorem layoutOf_of_complete (hnamed : r.WellNamed) (hcurrent : r.Current)
    {walked : List ClassSummary} {next : Option String} (hwalk : Walk r name walked next)
    (hcomplete : Complete r walked next) :
    (r.layoutOf name).1.result.map (fun kept => some kept.layout) = outcome walked next := by
  obtain ⟨walked', next', hwalk', hcomplete', hanswer⟩ := layoutOf_outcome hnamed hcurrent name
  obtain ⟨rfl, rfl⟩ := hwalk.complete_unique hnamed hcomplete hwalk' hcomplete'
  exact hanswer

/-! ## The kinds of answers -/

/-- The walk from a name comes to a name that is not registered before it repeats one. -/
def ReachesUnknown (r : LayoutRegistry) (name stop : String) : Prop :=
  ∃ walked, Walk r name walked (some stop) ∧ (walkedNames walked).Nodup ∧ r.find? stop = none

/-- The walk from a name repeats a name; `names` are the names up to the repeated one,
which they end with. -/
def Repeats (r : LayoutRegistry) (name : String) (names : List String) : Prop :=
  ∃ walked stop, Walk r name walked (some stop) ∧ (walkedNames walked).Nodup ∧
    stop ∈ walkedNames walked ∧ names = walkedNames walked ++ [stop]

/-- The walk from a name ends at a class without superclass; `chain` are the classes it
meets, from that class on. -/
def ReachesRoot (r : LayoutRegistry) (name : String) (chain : List ClassSummary) : Prop :=
  Walk r name chain.reverse none

/-- On a chain that ends, no class is met twice. -/
theorem ReachesRoot.distinct (hnamed : r.WellNamed) {chain : List ClassSummary}
    (hrooted : r.ReachesRoot name chain) : (chain.map (·.qualifiedName)).Nodup := by
  have hdistinct := hrooted.distinct_of_stuck hnamed (by simp)
  rwa [walkedNames, List.map_reverse, List.nodup_reverse] at hdistinct

/-- At a class without superclass the answer is the layout of the chain, or why it has
none. -/
theorem layoutOf_of_reachesRoot (hnamed : r.WellNamed) (hcurrent : r.Current)
    {chain : List ClassSummary} (hrooted : r.ReachesRoot name chain) :
    (r.layoutOf name).1.result.map (fun kept => some kept.layout) = TypeLayout.ofChain chain := by
  have hanswer := layoutOf_of_complete hnamed hcurrent hrooted
    (hrooted.complete_of_stuck hnamed (by simp))
  rwa [outcome, List.reverse_reverse] at hanswer

theorem eq_error_of_map {result : Except LayoutError KeptLayout} {e : LayoutError}
    (hfailed : result.map (fun kept => some kept.layout) = .error e) : result = .error e := by
  cases result with
  | error e' => cases hfailed; rfl
  | ok kept => cases hfailed

/-- A query of a class with an unregistered ancestor names this ancestor. -/
theorem layoutOf_of_unknown (hnamed : r.WellNamed) (hcurrent : r.Current) {stop : String}
    (hunknown : r.ReachesUnknown name stop) :
    (r.layoutOf name).1.result = .error (.unknownType stop) := by
  obtain ⟨walked, hwalk, hdistinct, hmissing⟩ := hunknown
  apply eq_error_of_map
  rw [layoutOf_of_complete hnamed hcurrent hwalk ⟨hdistinct, by simp [hmissing]⟩]
  exact outcome_of_unknown hnamed hwalk hmissing

/-- A query of a class with a cycle above it lists the names up to the first that is repeated, and
ends with it. -/
theorem layoutOf_of_repeats (hnamed : r.WellNamed) (hcurrent : r.Current) {names : List String}
    (hrepeats : r.Repeats name names) :
    (r.layoutOf name).1.result = .error (.cyclicInheritance names) := by
  obtain ⟨walked, stop, hwalk, hdistinct, hmet, rfl⟩ := hrepeats
  apply eq_error_of_map
  rw [layoutOf_of_complete hnamed hcurrent hwalk ⟨hdistinct, by rintro _ ⟨⟩; exact .inr hmet⟩]
  exact outcome_of_met hmet

/-- A query of a class whose chain breaks the rule for array elements reports the topmost class that
does. -/
theorem layoutOf_of_firstFault (hnamed : r.WellNamed) (hcurrent : r.Current)
    {chain : List ClassSummary} {c : ClassSummary} {fault : ElementsFault}
    (hrooted : r.ReachesRoot name chain) (hfirst : TypeLayout.FirstFault chain c fault) :
    (r.layoutOf name).1.result = .error (.arrayElements c.qualifiedName fault) := by
  apply eq_error_of_map
  rw [layoutOf_of_reachesRoot hnamed hcurrent hrooted]
  exact TypeLayout.ofChain_of_firstFault (hrooted.distinct hnamed) hfirst

/-- A query succeeds if the chain ends and keeps the rule, and answers with the layout of the
chain. -/
theorem layoutOf_of_keepsRule (hnamed : r.WellNamed) (hcurrent : r.Current)
    {chain : List ClassSummary} (hrooted : r.ReachesRoot name chain)
    (hkeeps : TypeLayout.KeepsRule chain) :
    ∃ kept, (r.layoutOf name).1.result = .ok kept ∧
      TypeLayout.ofChain chain = .ok (some kept.layout) := by
  have hanswer := layoutOf_of_reachesRoot hnamed hcurrent hrooted
  obtain ⟨below, hlaidOut⟩ := TypeLayout.ofChain_of_keepsRule (hrooted.distinct hnamed) hkeeps
  cases hresult : (r.layoutOf name).1.result with
  -- The chain has a layout, so the answer is not an error.
  | error e =>
    rw [hresult, hlaidOut] at hanswer
    cases hanswer
  | ok kept =>
    rw [hresult] at hanswer
    exact ⟨kept, rfl, hanswer.symm⟩

/-- Every walk ends in one of four ways, and the query answers accordingly. -/
theorem layoutOf_cases (hnamed : r.WellNamed) (hcurrent : r.Current) (name : String) :
    (∃ stop, r.ReachesUnknown name stop ∧
        (r.layoutOf name).1.result = .error (.unknownType stop)) ∨
      (∃ names, r.Repeats name names ∧
        (r.layoutOf name).1.result = .error (.cyclicInheritance names)) ∨
      (∃ chain c fault, r.ReachesRoot name chain ∧ TypeLayout.FirstFault chain c fault ∧
        (r.layoutOf name).1.result = .error (.arrayElements c.qualifiedName fault)) ∨
      ∃ chain kept, r.ReachesRoot name chain ∧ TypeLayout.KeepsRule chain ∧
        TypeLayout.ofChain chain = .ok (some kept.layout) ∧
        (r.layoutOf name).1.result = .ok kept := by
  obtain ⟨walked, next, hwalk, hcomplete, -⟩ := layoutOf_outcome hnamed hcurrent name
  cases next with
  | none =>
    have hrooted : r.ReachesRoot name walked.reverse := by
      rwa [ReachesRoot, List.reverse_reverse]
    -- A chain that ends keeps the rule or has a first class that does not.
    rcases TypeLayout.keepsRule_or_firstFault walked.reverse with hkeeps | ⟨c, fault, hfirst⟩
    · obtain ⟨kept, hanswer, hlaidOut⟩ := layoutOf_of_keepsRule hnamed hcurrent hrooted hkeeps
      exact .inr (.inr (.inr ⟨_, kept, hrooted, hkeeps, hlaidOut, hanswer⟩))
    · exact .inr (.inr (.inl
        ⟨_, c, fault, hrooted, hfirst, layoutOf_of_firstFault hnamed hcurrent hrooted hfirst⟩))
  | some stop =>
    rcases hcomplete.stop stop rfl with hunknown | hmet
    · have hreached : r.ReachesUnknown name stop := ⟨walked, hwalk, hcomplete.distinct, hunknown⟩
      exact .inl ⟨stop, hreached, layoutOf_of_unknown hnamed hcurrent hreached⟩
    · have hrepeats : r.Repeats name (walkedNames walked ++ [stop]) :=
        ⟨walked, stop, hwalk, hcomplete.distinct, hmet, rfl⟩
      exact .inr (.inl ⟨_, hrepeats, layoutOf_of_repeats hnamed hcurrent hrepeats⟩)

/-- The four kinds of answers exclude each other, so that the answer tells how the walk has ended.
Here: at a name that is not registered. -/
theorem layoutOf_unknown_iff (hnamed : r.WellNamed) (hcurrent : r.Current) (stop : String) :
    (r.layoutOf name).1.result = .error (.unknownType stop) ↔ r.ReachesUnknown name stop := by
  refine ⟨fun hfailed => ?_, layoutOf_of_unknown hnamed hcurrent⟩
  -- Three of the four cases give another answer.
  rcases layoutOf_cases hnamed hcurrent name with ⟨stop', hreached, hanswer⟩ | ⟨_, -, hanswer⟩ |
    ⟨_, _, _, -, -, hanswer⟩ | ⟨_, _, -, -, -, hanswer⟩ <;>
    rw [hfailed] at hanswer <;> cases hanswer
  exact hreached

/-- A cycle is reported exactly if the walk comes back to a name, with the names that it has met. -/
theorem layoutOf_cyclic_iff (hnamed : r.WellNamed) (hcurrent : r.Current) (names : List String) :
    (r.layoutOf name).1.result = .error (.cyclicInheritance names) ↔ r.Repeats name names := by
  refine ⟨fun hfailed => ?_, layoutOf_of_repeats hnamed hcurrent⟩
  rcases layoutOf_cases hnamed hcurrent name with ⟨_, -, hanswer⟩ | ⟨names', hrepeats, hanswer⟩ |
    ⟨_, _, _, -, -, hanswer⟩ | ⟨_, _, -, -, -, hanswer⟩ <;>
    rw [hfailed] at hanswer <;> cases hanswer
  exact hrepeats

/-- A fault is reported exactly if the walk ends and the chain breaks the rule, for the first class
that does. -/
theorem layoutOf_fault_iff (hnamed : r.WellNamed) (hcurrent : r.Current) (typeName : String)
    (fault : ElementsFault) :
    (r.layoutOf name).1.result = .error (.arrayElements typeName fault) ↔
      ∃ chain c, r.ReachesRoot name chain ∧ TypeLayout.FirstFault chain c fault ∧
        c.qualifiedName = typeName := by
  constructor
  · intro hfailed
    rcases layoutOf_cases hnamed hcurrent name with ⟨_, -, hanswer⟩ | ⟨_, -, hanswer⟩ |
      ⟨chain, c, _, hrooted, hfirst, hanswer⟩ | ⟨_, _, -, -, -, hanswer⟩ <;>
      rw [hfailed] at hanswer <;> cases hanswer
    exact ⟨chain, c, hrooted, hfirst, rfl⟩
  · rintro ⟨chain, c, hrooted, hfirst, rfl⟩
    exact layoutOf_of_firstFault hnamed hcurrent hrooted hfirst

/-- A query succeeds exactly if the walk ends and the chain keeps the rule. The layout is that of
the chain. -/
theorem layoutOf_ok_iff (hnamed : r.WellNamed) (hcurrent : r.Current) (layout : TypeLayout) :
    (∃ kept, (r.layoutOf name).1.result = .ok kept ∧ kept.layout = layout) ↔
      ∃ chain, r.ReachesRoot name chain ∧ TypeLayout.KeepsRule chain ∧
        TypeLayout.ofChain chain = .ok (some layout) := by
  constructor
  · rintro ⟨kept, hanswered, rfl⟩
    rcases layoutOf_cases hnamed hcurrent name with ⟨_, -, hanswer⟩ | ⟨_, -, hanswer⟩ |
      ⟨_, _, _, -, -, hanswer⟩ | ⟨chain, _, hrooted, hkeeps, hlaidOut, hanswer⟩ <;>
      rw [hanswered] at hanswer <;> cases hanswer
    exact ⟨chain, hrooted, hkeeps, hlaidOut⟩
  · rintro ⟨chain, hrooted, hkeeps, hlaidOut⟩
    obtain ⟨kept, hanswered, hlaidOut'⟩ := layoutOf_of_keepsRule hnamed hcurrent hrooted hkeeps
    rw [hlaidOut] at hlaidOut'
    cases hlaidOut'
    exact ⟨kept, hanswered, rfl⟩

end LayoutRegistry

end Lowering
