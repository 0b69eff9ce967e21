import Lowering.Proofs.Layout.Resolution

/-!
# Kept layouts

A registry is `Sound` when every layout it keeps is the one that the walk from its
class leads to, and it keeps one layout for a class at most. Queries leave it sound, and
what they do to it besides is said once, by `Grown`: the classes stay, and the layouts
created on the way are kept in front of the others, under keys not used before.

Since the answers of a sound registry are those of complete walks, they depend on the
registered classes only: `layoutOf_congr` and `layoutsOf_congr`.
-/

namespace Lowering.LayoutRegistry

variable {r r' r'' : LayoutRegistry} {name : String}

/-! ## Layouts that are created -/

/-- The layout that a computation gives, if it succeeds. -/
def given (result : Except LayoutError KeptLayout) : List KeptLayout :=
  result.toOption.toList

theorem mem_given {result : Except LayoutError KeptLayout} {kept : KeptLayout} :
    kept ∈ given result ↔ result = .ok kept := by
  cases result <;> simp [given, Except.toOption, eq_comm]

/-- The layouts created when a chain of superclasses is laid out, in order. -/
def creations (r : LayoutRegistry) : Ancestry → List KeptLayout
  | .kept _ _ => []
  | .root c => given (r.compute c none).1
  | .derived c parent =>
    r.creations parent ++ (given (r.layOut parent).1.result).flatMap fun above =>
      given ((r.layOut parent).2.compute c (some above)).1

/-- The layouts created by a query. -/
def creationsOf (r : LayoutRegistry) (name : String) : List KeptLayout :=
  (r.ancestry [] name).toOption.toList.flatMap r.creations

/-- The layouts created by queries of several names, up to the first that fails. -/
def creationsOfAll (r : LayoutRegistry) : List String → List KeptLayout
  | [] => []
  | name :: rest =>
    r.creationsOf name ++ (given (r.layoutOf name).1.result).flatMap fun _ =>
      (r.layoutOf name).2.creationsOfAll rest

/-! ## What queries do to a registry -/

/-- The keys of created layouts count on from where the registry stands. -/
structure Numbered (r : LayoutRegistry) (created : List KeptLayout) (r' : LayoutRegistry) :
    Prop where
  counted : r.computed ≤ r'.computed
  inside : ∀ kept ∈ created, r.computed ≤ kept.key ∧ kept.key < r'.computed
  ordered : created.Pairwise fun kept later => kept.key < later.key

/-- The created layouts are kept in front of the others, under the names of their classes. -/
def Adds (r : LayoutRegistry) (created : List KeptLayout) (r' : LayoutRegistry) : Prop :=
  r'.kept = created.reverse.map (fun kept => (kept.layout.qualifiedName, kept)) ++ r.kept

/-- What creating layouts does to a registry. -/
structure Grown (r : LayoutRegistry) (created : List KeptLayout) (r' : LayoutRegistry) : Prop
    extends Numbered r created r' where
  classes : r'.classes = r.classes
  adds : Adds r created r'

/-- What is created later has larger keys, over any number of steps. -/
theorem Numbered.trans {created further : List KeptLayout} (hfirst : Numbered r created r')
    (hsecond : Numbered r' further r'') : Numbered r (created ++ further) r'' where
  counted := Nat.le_trans hfirst.counted hsecond.counted
  inside := by
    have hcounted := hfirst.counted
    have hfurther := hsecond.counted
    intro kept hmem
    rcases List.mem_append.mp hmem with hearly | hlate
    · have := hfirst.inside kept hearly
      omega
    · have := hsecond.inside kept hlate
      omega
  ordered := by
    refine List.pairwise_append.mpr ⟨hfirst.ordered, hsecond.ordered, ?_⟩
    -- The count between the two parts separates their keys.
    intro kept hearly later hlate
    exact Nat.lt_of_lt_of_le (hfirst.inside kept hearly).2 (hsecond.inside later hlate).1

/-- Layouts pile up in front, so that the last created is the first that is kept. -/
theorem Adds.trans {created further : List KeptLayout} (hfirst : Adds r created r')
    (hsecond : Adds r' further r'') : Adds r (created ++ further) r'' := by
  rw [Adds, hsecond, hfirst, List.reverse_append, List.map_append, List.append_assoc]

/-- A name for which no layout was created has the kept layout that it had. -/
theorem Adds.lookup_eq {created : List KeptLayout} (hadds : Adds r created r')
    (hothers : ∀ kept ∈ created, kept.layout.qualifiedName ≠ name) :
    r'.kept.lookup name = r.kept.lookup name := by
  rw [hadds, List.lookup_append, List.lookup_eq_none_iff.mpr, Option.none_or]
  intro entry hmem
  obtain ⟨kept, hcreated, rfl⟩ := List.mem_map.mp hmem
  simpa using (hothers kept (List.mem_reverse.mp hcreated)).symm

/-- A kept layout stays, as long as no class gets a second one. -/
theorem Adds.lookup_of_hit {created : List KeptLayout} (hadds : Adds r created r')
    (honce : (Keyed.names r'.kept).Nodup) {layout : KeptLayout}
    (hlookup : r.kept.lookup name = some layout) : r'.kept.lookup name = some layout := by
  rw [hadds.lookup_eq, hlookup]
  -- A layout created for this class would be a second one.
  rintro kept hmem rfl
  rw [hadds, Keyed.names, List.map_append, List.nodup_append] at honce
  refine honce.2.2 kept.layout.qualifiedName ?_ _ (Keyed.mem_names_of_lookup hlookup) rfl
  simpa using ⟨kept, hmem, rfl⟩

/-- No class gets a second layout if each has one layout at the end. -/
theorem Adds.nodup {created : List KeptLayout} (hadds : Adds r created r')
    (honce : (Keyed.names r'.kept).Nodup) : (created.map (·.layout.qualifiedName)).Nodup := by
  rw [hadds, Keyed.names, List.map_append, List.nodup_append] at honce
  simpa [Function.comp_def] using honce.1

theorem Grown.refl (r : LayoutRegistry) : Grown r [] r :=
  ⟨⟨Nat.le_refl _, by simp, List.Pairwise.nil⟩, rfl, rfl⟩

/-- What two steps do one after the other is again of this kind, with the layouts of the second
after those of the first. -/
theorem Grown.trans {created further : List KeptLayout} (hfirst : Grown r created r')
    (hsecond : Grown r' further r'') : Grown r (created ++ further) r'' where
  toNumbered := hfirst.toNumbered.trans hsecond.toNumbered
  classes := hsecond.classes.trans hfirst.classes
  adds := hfirst.adds.trans hsecond.adds

/-- Creating layouts does not change which classes are registered. -/
theorem Grown.find?_eq {created : List KeptLayout} (hgrown : Grown r created r') (name : String) :
    r'.find? name = r.find? name := by
  rw [find?, find?, hgrown.classes]

/-- What a computation can do: it fails and is counted, or it succeeds and its result is
kept under a new key. -/
theorem compute_cases (r : LayoutRegistry) (c : ClassSummary) (parent : Option KeptLayout) :
    (∃ e, TypeLayout.create c (parent.map (·.layout)) = .error e ∧
        r.compute c parent = (.error e, { r with computed := r.computed + 1 })) ∨
      ∃ kept, TypeLayout.create c (parent.map (·.layout)) = .ok kept.layout ∧
        kept.key = r.computed ∧ kept.layout.qualifiedName = c.qualifiedName ∧
        r.compute c parent =
          (.ok kept, { r with
            computed := r.computed + 1, kept := (kept.layout.qualifiedName, kept) :: r.kept }) := by
  rw [compute]
  cases hcreated : TypeLayout.create c (parent.map (·.layout)) with
  | error e => exact .inl ⟨e, rfl, rfl⟩
  | ok layout =>
    -- A layout has the name of the class that it was made for.
    have hown : layout.qualifiedName = c.qualifiedName := by
      rw [TypeLayout.qualifiedName, (TypeLayout.placeFields_of_create hcreated).2]
    exact .inr ⟨⟨r.computed, layout, parent.map (·.key)⟩, rfl, rfl, hown, by rw [hown]⟩

/-- A computation that fails is counted as well, so that its key is not used for the next one. -/
theorem compute_grown (r : LayoutRegistry) (c : ClassSummary) (parent : Option KeptLayout) :
    Grown r (given (r.compute c parent).1) (r.compute c parent).2 := by
  rcases compute_cases r c parent with ⟨e, -, hcomputed⟩ | ⟨kept, -, hkey, -, hcomputed⟩
  · rw [hcomputed]
    exact ⟨⟨Nat.le_succ _, by simp [given, Except.toOption], List.Pairwise.nil⟩, rfl, rfl⟩
  · rw [hcomputed]
    refine ⟨⟨Nat.le_succ _, ?_, List.pairwise_singleton _ _⟩, rfl, rfl⟩
    intro other hmem
    -- The only layout created has the count before the computation as its key.
    obtain rfl := List.mem_singleton.mp hmem
    simp [hkey]

/-- Laying out a chain creates layouts for some of its classes, from the top of the chain down. -/
theorem layOut_grown (r : LayoutRegistry) (chain : Ancestry) :
    Grown r (r.creations chain) (r.layOut chain).2 := by
  induction chain with
  | kept name layout => exact .refl r
  | root c => exact compute_grown r c none
  | derived c parent ih =>
    rcases hupper : r.layOut parent with ⟨⟨result, log⟩, after⟩
    rw [hupper] at ih
    simp only [creations, layOut, hupper]
    cases result with
    -- If the superclass has no layout, nothing is computed for the class.
    | error e => simpa [given, Except.toOption] using ih
    | ok above => simpa [given, Except.toOption] using ih.trans (compute_grown after c (some above))

/-- A query creates the layouts of the classes on the chain that are not kept yet. If it finds no
chain, it creates nothing. -/
theorem layoutOf_grown (r : LayoutRegistry) (name : String) :
    Grown r (r.creationsOf name) (r.layoutOf name).2 := by
  rw [creationsOf, layoutOf]
  cases r.ancestry [] name with
  | error e => exact .refl r
  | ok chain => simpa [Except.toOption] using layOut_grown r chain

/-- Queries of several names create what each of them creates in turn, and stop at the first that
fails. -/
theorem layoutsOf_grown (r : LayoutRegistry) (names : List String) :
    Grown r (r.creationsOfAll names) (r.layoutsOf names).2 := by
  -- Each query finds the registry as the one before it has left it.
  induction names generalizing r with
  | nil => exact .refl r
  | cons name rest ih =>
    have hfirst := layoutOf_grown r name
    rcases hanswered : r.layoutOf name with ⟨⟨result, log⟩, after⟩
    rw [hanswered] at hfirst
    simp only [creationsOfAll, layoutsOf, hanswered]
    cases result with
    | error e => simpa [given, Except.toOption] using hfirst
    | ok layout => simpa [given, Except.toOption] using hfirst.trans (ih after)

/-- Only the classes that are laid out get layouts. -/
theorem name_of_mem_creations {chain : Ancestry} {kept : KeptLayout}
    (hmem : kept ∈ r.creations chain) : kept.layout.qualifiedName ∈ walkedNames chain.classes := by
  -- The registry changes along the chain, so this is for every registry.
  have hcomputed : ∀ (r : LayoutRegistry) c parent, kept ∈ given (r.compute c parent).1 →
      kept.layout.qualifiedName = c.qualifiedName := by
    intro r c parent hmem
    rcases compute_cases r c parent with ⟨e, -, hfailed⟩ | ⟨layout, -, -, hown, hsucceeded⟩
    · simp [hfailed, given, Except.toOption] at hmem
    · rw [hsucceeded] at hmem
      rwa [List.mem_singleton.mp hmem]
  induction chain with
  | kept => cases hmem
  | root c => exact List.mem_singleton.mpr (hcomputed r c none hmem)
  | derived c parent ih =>
    rcases List.mem_append.mp hmem with habove | hthis
    · exact List.mem_cons_of_mem _ (ih habove)
    · obtain ⟨above, -, hcreated⟩ := List.mem_flatMap.mp hthis
      exact List.mem_cons.mpr (.inl (hcomputed _ c (some above) hcreated))

/-! ## Sound registries -/

/-- The kept layouts are those that the registered classes have, one for a class. -/
structure Sound (r : LayoutRegistry) : Prop where
  named : r.WellNamed
  current : r.Current
  once : (Keyed.names r.kept).Nodup

theorem sound_empty : empty.Sound where
  named := wellNamed_empty
  current := by
    intro name kept hlookup
    cases hlookup
  once := List.nodup_nil

/-- The layout is kept for the class of the name. -/
def Retains (r : LayoutRegistry) (name : String) (kept : KeptLayout) : Prop :=
  r.kept.lookup name = some kept

/-- A class laid out on its superclass's layout gets the layout that its walk leads to. -/
theorem Sound.laidOut_of_create (hsound : r.Sound) {c : ClassSummary} {parent : Option KeptLayout}
    {layout : TypeLayout} (hknown : r.find? name = some c) (hrests : c.RestsOn r.Retains parent)
    (hcreated : TypeLayout.create c (parent.map (·.layout)) = .ok layout) :
    r.LaidOut name layout := by
  obtain ⟨walked, hwalk, hlaidOut⟩ := walk_of_restsOn (hrests.map hsound.current) hknown
  rw [hcreated] at hlaidOut
  exact ⟨walked, hwalk, hlaidOut⟩

/-- A computation for a class without kept layout leaves the registry sound, and its
result is kept. -/
theorem Sound.compute (hsound : r.Sound) {c : ClassSummary} {parent : Option KeptLayout}
    (hknown : r.find? name = some c) (hmiss : r.kept.lookup name = none)
    (hrests : c.RestsOn r.Retains parent) :
    (r.compute c parent).2.Sound ∧ ∀ kept, (r.compute c parent).1 = .ok kept →
      (r.compute c parent).2.kept.lookup name = some kept := by
  rcases compute_cases r c parent with ⟨e, -, hcomputed⟩ | ⟨kept, hcreated, -, hown, hcomputed⟩
  · rw [hcomputed]
    -- A failed computation changes nothing but the count.
    refine ⟨⟨⟨hsound.named.distinct, hsound.named.own⟩, ?_, hsound.once⟩, by simp⟩
    intro other layout hlookup
    obtain ⟨walked, hwalk, hlaidOut⟩ := hsound.current other layout hlookup
    exact ⟨walked, hwalk.congr rfl, hlaidOut⟩
  · obtain ⟨walked, hwalk, hlaidOut⟩ := hsound.laidOut_of_create hknown hrests hcreated
    rw [hsound.named.qualifiedName hknown] at hown
    rw [hcomputed, hown]
    refine ⟨⟨⟨hsound.named.distinct, hsound.named.own⟩, ?_, ?_⟩, ?_⟩
    · intro other layout hlookup
      -- The new layout is that of its class by the walk, and the others are as before.
      by_cases hsame : other = name
      · subst hsame
        rw [List.lookup_cons_self] at hlookup
        cases hlookup
        exact ⟨walked, hwalk.congr rfl, hlaidOut⟩
      · have hearlier : r.kept.lookup other = some layout := by
          rwa [List.lookup_cons, beq_false_of_ne hsame] at hlookup
        obtain ⟨above, honward, hupper⟩ := hsound.current other layout hearlier
        exact ⟨above, honward.congr rfl, hupper⟩
    · exact List.nodup_cons.mpr ⟨Keyed.not_mem_names_of_lookup hmiss, hsound.once⟩
    · rintro _ ⟨⟩
      exact List.lookup_cons_self

/-- Laying out the chain that a query has found leaves the registry sound, and the
answer is kept under the name asked for. -/
theorem Sound.layOut (hsound : r.Sound) {chain : Ancestry} (hfound : Found r name chain) :
    (r.layOut chain).2.Sound ∧ ∀ kept, (r.layOut chain).1.result = .ok kept →
      (r.layOut chain).2.kept.lookup name = some kept := by
  induction hfound with
  | kept hlookup =>
    refine ⟨hsound, ?_⟩
    rintro _ ⟨⟩
    exact hlookup
  | root hmiss hknown htop => exact hsound.compute hknown hmiss htop
  -- The induction leaves the registry sound with the superclass's layout kept, which is what the
  -- class rests on.
  | derived hmiss hknown hsuper habove hnew ih =>
    rename_i name superName c parent
    have hgrown := layOut_grown r parent
    rcases hupper : r.layOut parent with ⟨⟨result, log⟩, after⟩
    rw [hupper] at ih hgrown
    simp only [LayoutRegistry.layOut, hupper]
    obtain ⟨hsoundAfter, hkept⟩ := ih
    cases result with
    | error e => exact ⟨hsoundAfter, by simp⟩
    | ok layout =>
      -- Only superclasses have been laid out so far, so this class still has no layout.
      have hstillMissing : after.kept.lookup name = none := by
        rw [hgrown.adds.lookup_eq, hmiss]
        rintro created hmem rfl
        exact hnew (name_of_mem_creations hmem)
      exact hsoundAfter.compute (hgrown.find?_eq name ▸ hknown) hstillMissing
        ⟨superName, hsuper, hkept layout rfl⟩

/-- A query leaves the registry sound. A layout that it answers is kept afterwards, so that the same
query gets the same layout again. -/
theorem Sound.layoutOf (hsound : r.Sound) (name : String) :
    (r.layoutOf name).2.Sound ∧ ∀ kept, (r.layoutOf name).1.result = .ok kept →
      (r.layoutOf name).2.kept.lookup name = some kept := by
  rw [LayoutRegistry.layoutOf]
  cases hended : r.ancestry [] name with
  | error e => exact ⟨hsound, by simp⟩
  | ok chain => exact hsound.layOut (ancestry_eq_ok hsound.named hended).1

/-- Queries of several names leave the registry sound, and their answers are kept. -/
theorem Sound.layoutsOf (hsound : r.Sound) (names : List String) :
    (r.layoutsOf names).2.Sound ∧ ∀ layouts, (r.layoutsOf names).1.result = .ok layouts →
      List.Forall₂ (fun name kept => (r.layoutsOf names).2.kept.lookup name = some kept) names
        layouts := by
  induction names generalizing r with
  | nil =>
    refine ⟨hsound, ?_⟩
    rintro _ ⟨⟩
    exact .nil
  | cons name rest ih =>
    obtain ⟨hsoundAfter, hkept⟩ := hsound.layoutOf name
    rcases hanswered : r.layoutOf name with ⟨⟨result, log⟩, after⟩
    rw [hanswered] at hsoundAfter hkept
    simp only [LayoutRegistry.layoutsOf, hanswered]
    cases result with
    | error e => exact ⟨hsoundAfter, by simp⟩
    | ok layout =>
      obtain ⟨hsoundEnd, hfurther⟩ := ih hsoundAfter
      refine ⟨hsoundEnd, ?_⟩
      intro layouts hall
      cases hothers : (after.layoutsOf rest).1.result with
      | error e => simp [hothers, Except.map] at hall
      | ok layoutsAfter =>
        simp only [hothers, Except.map, Except.ok.injEq] at hall
        subst hall
        -- The first answer is still kept after the other queries.
        have hstays :=
          (layoutsOf_grown after rest).adds.lookup_of_hit hsoundEnd.once (hkept layout rfl)
        exact .cons hstays (hfurther layoutsAfter hothers)

/-! ## Answers -/

/-- The layout that a query answers is that of the class asked for. -/
theorem Sound.qualifiedName_of_layoutOf (hsound : r.Sound) {kept : KeptLayout}
    (hanswered : (r.layoutOf name).1.result = .ok kept) : kept.layout.qualifiedName = name := by
  obtain ⟨chain, hrooted, -, hlaidOut⟩ :=
    (layoutOf_ok_iff hsound.named hsound.current kept.layout).mp ⟨kept, hanswered, rfl⟩
  -- The layout is named after the last class of the chain, where the walk has begun.
  have hlast := TypeLayout.name_of_ofChain hlaidOut
  rw [← List.head?_reverse, Walk.head?_name hsound.named hrooted] at hlast
  exact Option.some.inj hlast

/-- The layouts that queries of several names answer are those of the classes asked for. -/
theorem Sound.qualifiedNames_of_layoutsOf (hsound : r.Sound) {names : List String}
    {layouts : List KeptLayout} (hanswered : (r.layoutsOf names).1.result = .ok layouts) :
    layouts.map (·.layout.qualifiedName) = names := by
  induction names generalizing r layouts with
  | nil =>
    cases hanswered
    rfl
  | cons name rest ih =>
    have hsoundAfter := (hsound.layoutOf name).1
    have hown : ∀ kept, (r.layoutOf name).1.result = .ok kept → kept.layout.qualifiedName = name :=
      fun _ => hsound.qualifiedName_of_layoutOf
    rcases hfirst : r.layoutOf name with ⟨⟨result, log⟩, after⟩
    rw [hfirst] at hsoundAfter hown
    simp only [LayoutRegistry.layoutsOf, hfirst] at hanswered
    cases result with
    | error e => cases hanswered
    | ok layout =>
      cases hothers : (after.layoutsOf rest).1.result with
      | error e => simp [hothers, Except.map] at hanswered
      | ok layoutsAfter =>
        simp only [hothers, Except.map, Except.ok.injEq] at hanswered
        subst hanswered
        rw [List.map_cons, hown layout rfl, ih hsoundAfter hothers]

/-- Layouts in `some` are compared like the layouts themselves. -/
theorem map_layout_of_map_some {first second : Except LayoutError KeptLayout}
    (hsame : first.map (fun kept => some kept.layout) = second.map fun kept => some kept.layout) :
    first.map (·.layout) = second.map (·.layout) := by
  cases first <;> cases second <;> simp_all [Except.map]

theorem map_layout_cons (layout : KeptLayout) (others : Except LayoutError (List KeptLayout)) :
    (others.map (layout :: ·)).map (List.map (·.layout)) =
      (others.map (List.map (·.layout))).map (layout.layout :: ·) := by
  cases others <;> rfl

/-- Registries of the same classes answer alike, whatever layouts each of them keeps: both answers
are what the one complete walk leads to. -/
theorem layoutOf_congr (hsound : r.Sound) (hsound' : r'.Sound) (hsame : r'.classes = r.classes)
    (name : String) :
    (r'.layoutOf name).1.result.map (·.layout) = (r.layoutOf name).1.result.map (·.layout) := by
  obtain ⟨walked, next, hwalk, hcomplete, hanswer⟩ :=
    layoutOf_outcome hsound.named hsound.current name
  have hcomplete' : Complete r' walked next := by
    refine ⟨hcomplete.distinct, ?_⟩
    intro stop hreached
    rw [find?, hsame]
    exact hcomplete.stop stop hreached
  have hanswer' := layoutOf_of_complete hsound'.named hsound'.current (hwalk.congr hsame) hcomplete'
  exact map_layout_of_map_some (hanswer'.trans hanswer.symm)

/-- Registries of the same classes answer alike when several names are asked for. -/
theorem layoutsOf_congr (hsound : r.Sound) (hsound' : r'.Sound) (hsame : r'.classes = r.classes)
    (names : List String) :
    (r'.layoutsOf names).1.result.map (List.map (·.layout)) =
      (r.layoutsOf names).1.result.map (List.map (·.layout)) := by
  induction names generalizing r r' with
  | nil => rfl
  | cons name rest ih =>
    have hhead := layoutOf_congr hsound hsound' hsame name
    have hsoundAfter := (hsound.layoutOf name).1
    have hsoundAfter' := (hsound'.layoutOf name).1
    -- The first query may create different layouts in the two registries, but leaves the classes
    -- alone.
    have hsameAfter : (r'.layoutOf name).2.classes = (r.layoutOf name).2.classes := by
      rw [(layoutOf_grown r' name).classes, (layoutOf_grown r name).classes, hsame]
    have htail := ih hsoundAfter hsoundAfter' hsameAfter
    rcases hfirst : r.layoutOf name with ⟨⟨result, log⟩, after⟩
    rcases hsecond : r'.layoutOf name with ⟨⟨result', log'⟩, after'⟩
    rw [hfirst, hsecond] at hhead htail
    simp only [LayoutRegistry.layoutsOf, hfirst, hsecond]
    cases result with
    | error e =>
      cases result' with
      | error e' =>
        cases hhead
        rfl
      | ok layout' => cases hhead
    | ok layout =>
      cases result' with
      -- One fails and the other does not, which the comparison of the answers excludes.
      | error e' => cases hhead
      | ok layout' =>
        have hsameLayout : layout'.layout = layout.layout := Except.ok.inj hhead
        simp only [map_layout_cons, htail, hsameLayout]

end Lowering.LayoutRegistry
