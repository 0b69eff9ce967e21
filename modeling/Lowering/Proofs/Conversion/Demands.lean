import Lowering.Proofs.Conversion.Relation
import Lowering.Proofs.Tree.Traces

/-!
# What a unit demands at its conversion sites

The conversion sites of a unit can be read off the unit itself. Every node demands
something of its parts by their types: a receiver must not be null, an argument
flows into the slot of its parameter. `CompilationUnit.hookCalls` lists these
demands in the order of the traversal, each with the place where it arises.

Main statements:

- `Demand.ofBinary_congr` and its kind: demands depend on types only.
- `CompilationUnit.arisesIn_of_mem_hookCalls`: the place is the innermost statement
  or the field, with the type and the method around it.
-/

namespace Lowering

open Conversion

/-! ## Demands -/

/-- The two hooks of a handler. -/
inductive Hook where
  | slot
  | nonNull
  deriving DecidableEq

/-- What a hook is told about a value, apart from the place. -/
structure Demand where
  hook : Hook
  inferred : Ty
  declared : Ty
  deriving DecidableEq

namespace Demand

/-- A value that flows into a slot. -/
def ofSlot (inferred declared : Ty) (value : Expr) : Demand where
  hook := if inferred.isPrimitive && !value.type.isPrimitive then .nonNull else .slot
  inferred
  declared

/-- A value that is dereferenced, thrown or unboxed. -/
def ofRequired (value : Expr) : Demand := ⟨.nonNull, value.type, value.type⟩

def ofCondition (value : Expr) : Demand := ofSlot (.prim .boolean) (.prim .boolean) value

def ofOperand (value : Expr) : List Demand :=
  if value.type.isPrimitive then [] else [ofRequired value]

def ofReceiver (isStatic : Bool) (receiver : Option Expr) : List Demand :=
  if isStatic then [] else receiver.toList.map ofRequired

def ofArguments (target : MethodRef) (arguments : List Expr) : List Demand :=
  List.zipWith3 ofSlot target.parameters target.declaration.parameters arguments

def ofInitializer (f : Fragment Expr) : List Demand :=
  f.initializer.toList.map (ofSlot f.binder.type f.binder.type)

/-- The target of an update is read and unboxed first if it has a wrapper type. -/
def ofUpdate (target : Expr) : List Demand :=
  -- A target of any other type is written without being read by a hook.
  if target.type.unboxed?.isNone then [] else [ofRequired target]

/-- The value that is assigned or added to a target. -/
def ofAssigned (target value : Expr) : Demand :=
  ofSlot target.type (targetDeclaredType target) value

def ofBinary (op : BinaryOp) (left right : Expr) (type : Ty) : List Demand :=
  match op with
  | .assign => [ofAssigned left right]
  -- The added value is asked for first, then the check of the target.
  | .plusAssign | .minusAssign =>
    (if left.type.unboxed?.isSome then ofOperand right else [ofAssigned left right]) ++
      ofUpdate left
  | op =>
    (if unboxesBeside op type right then ofOperand left else []) ++
      (if unboxesBeside op type left then ofOperand right else [])

/-! ### Parts of the same type -/

variable {R : Expr → Expr → Prop}

/-- The hook is chosen by the type of the value, and the rest of the demand comes from the slot. -/
theorem ofSlot_congr {inferred declared : Ty} {e e' : Expr} (h : e'.type = e.type) :
    ofSlot inferred declared e' = ofSlot inferred declared e := by
  rw [ofSlot, ofSlot, h]

theorem ofRequired_congr {e e' : Expr} (h : e'.type = e.type) : ofRequired e' = ofRequired e := by
  rw [ofRequired, ofRequired, h]

theorem ofOperand_congr {e e' : Expr} (h : e'.type = e.type) : ofOperand e' = ofOperand e := by
  rw [ofOperand, ofOperand, h, ofRequired_congr h]

theorem ofUpdate_congr {e e' : Expr} (h : e'.type = e.type) : ofUpdate e' = ofUpdate e := by
  rw [ofUpdate, ofUpdate, h, ofRequired_congr h]

/-- Parts are only known to be related by `R`, which is what a traversal tells about its results;
that related parts have one type is asked of members of the input alone. -/
theorem ofReceiver_congr {isStatic : Bool} {q q' : Option Expr} (h : Option.Rel R q q')
    (htype : ∀ e ∈ q.toList, ∀ e', R e e' → e'.type = e.type) :
    ofReceiver isStatic q' = ofReceiver isStatic q := by
  cases h with
  | none => rfl
  | @some e e' he =>
    have hrequired : ofRequired e' = ofRequired e :=
      ofRequired_congr (htype e (by simp) e' he)
    simp only [ofReceiver, Option.toList_some, List.map_cons, List.map_nil, hrequired]

/-- Arguments are matched with the parameter types of the call and of the declaration. Lists may
differ in length, and arguments without parameter demand nothing. -/
theorem zipWith3_ofSlot_congr {is ds : List Ty} {es es' : List Expr} (h : List.Forall₂ R es es')
    (htype : ∀ e ∈ es, ∀ e', R e e' → e'.type = e.type) :
    List.zipWith3 ofSlot is ds es' = List.zipWith3 ofSlot is ds es := by
  -- The three lists are used up together, so that the types are generalized.
  induction h generalizing is ds with
  | nil => rfl
  | @cons e e' es es' he _ ih =>
    cases is with
    | nil => rfl
    | cons i is =>
      cases ds with
      | nil => rfl
      | cons d ds =>
        show ofSlot i d e' :: List.zipWith3 ofSlot is ds es' =
          ofSlot i d e :: List.zipWith3 ofSlot is ds es
        rw [ofSlot_congr (htype e List.mem_cons_self e' he),
          ih fun x hx => htype x (List.mem_cons_of_mem _ hx)]

theorem ofInitializers_congr {fs fs' : List (Fragment Expr)}
    (h : List.Forall₂ (Fragment.Rel R) fs fs')
    (htype : ∀ e ∈ fs.filterMap (·.initializer), ∀ e', R e e' → e'.type = e.type) :
    fs'.flatMap ofInitializer = fs.flatMap ofInitializer := by
  induction h with
  | nil => rfl
  | @cons f f' fs fs' hf _ ih =>
    -- Initializers of the tail are initializers of the whole list.
    have hrest := ih fun x hx => by
      obtain ⟨g, hg, hx⟩ := List.mem_filterMap.mp hx
      exact htype x (List.mem_filterMap.mpr ⟨g, List.mem_cons_of_mem _ hg, hx⟩)
    rw [List.flatMap_cons, List.flatMap_cons, hrest]
    cases hf with
    | mk hi =>
      cases hi with
      | none => rfl
      | @some e e' he =>
        have hslot : ∀ i d, ofSlot i d e' = ofSlot i d e := fun i d =>
          ofSlot_congr (htype e (by simp) e' he)
        simp only [ofInitializer, Option.toList_some, List.map_cons, hslot, List.map_nil]

/-- Operations demand the same of parts with the same types. For the target of an assignment the
declared type matters as well, which is not part of its static type. -/
theorem ofBinary_congr {op : BinaryOp} {l l' r r' : Expr} {type : Ty} (hl : l'.type = l.type)
    (hdeclared : targetDeclaredType l' = targetDeclaredType l) (hr : r'.type = r.type) :
    ofBinary op l' r' type = ofBinary op l r type := by
  have hassigned : ofAssigned l' r' = ofAssigned l r := by
    rw [ofAssigned, ofAssigned, hl, hdeclared, ofSlot_congr hr]
  unfold ofBinary
  split
  · rw [hassigned]
  · rw [hassigned, hl, ofOperand_congr hr, ofUpdate_congr hl]
  · rw [hassigned, hl, ofOperand_congr hr, ofUpdate_congr hl]
  -- Whether one side is unboxed depends on the type of the other side.
  · have hleft : unboxesBeside op type l' = unboxesBeside op type l := by
      unfold unboxesBeside
      rw [hl]
    have hright : unboxesBeside op type r' = unboxesBeside op type r := by
      unfold unboxesBeside
      rw [hr]
    rw [hleft, hright, ofOperand_congr hl, ofOperand_congr hr]

end Demand

open Demand

/-- What a node demands of its parts. -/
def Expr.demands : Expr → List Demand
  | .fieldAccess receiver target => ofReceiver target.isStatic receiver
  | .call receiver target arguments =>
    ofReceiver target.isStatic receiver ++ ofArguments target arguments
  | .newInstance target arguments => ofArguments target arguments
  | .binary op left right type => ofBinary op left right type
  | .unary op _ operand _ => if op.hasSideEffect then ofUpdate operand else ofOperand operand
  | .cast type operand => if type.isPrimitive then [ofSlot type type operand] else []
  | .conditional type condition whenTrue whenFalse =>
    ofCondition condition ::
      if type.isPrimitive then ofOperand whenTrue ++ ofOperand whenFalse else []
  | .declare fragments => fragments.flatMap ofInitializer
  | _ => []

/-- What a statement in the given method demands of the expressions in it. -/
def Stmt.demands (method : Option MethodRef) : Stmt → List Demand
  | .returnValue value _ => value.toList.flatMap fun value =>
    method.toList.map fun method => ofSlot method.returnType method.declaration.returnType value
  | .conditional condition _ _ _ | .whileLoop condition _ _ => [ofCondition condition]
  | .forLoop _ condition _ _ _ => condition.toList.map ofCondition
  | .assertion condition _ _ => [ofCondition condition]
  | .throwValue value _ => [ofRequired value]
  | _ => []

/-- What a field demands of its initializer. -/
def FieldDecl.demands (f : FieldDecl) : List Demand :=
  f.initializer.toList.map (ofSlot f.ref.type f.ref.declaration.type)

/-! ## The listed calls -/

/-- A call of a hook. -/
structure HookCall where
  demand : Demand
  site : Site
  deriving DecidableEq

def callsAt (demands : List Demand) (site : Site) : List HookCall :=
  demands.map fun demand => ⟨demand, site⟩

theorem callsAt_append (ds ds' : List Demand) (site : Site) :
    callsAt (ds ++ ds') site = callsAt ds site ++ callsAt ds' site :=
  List.map_append

/-- The calls for an expression at the given place. -/
def Expr.hookCalls : Expr → Site → List HookCall := Expr.trace fun e => callsAt e.demands

/-- Statements have a place of their own, expressions have that of the statement. -/
def Stmt.callEvents : StmtEvents Site HookCall where
  expr := Expr.hookCalls
  own s site := callsAt (s.demands site.enclosingMethod) site
  inside s site := { site with span := s.span }

/-- The calls for a field of the given type. -/
def FieldDecl.hookCalls (f : FieldDecl) (type : ClassRef) : List HookCall :=
  let site := { span := f.span, enclosingType := some type }
  f.initializer.toList.flatMap (·.hookCalls site) ++ callsAt f.demands site

/-- The calls for a method of the given type. -/
def MethodDecl.hookCalls (d : MethodDecl) (type : ClassRef) : List HookCall :=
  d.body.toList.flatMap fun body => Stmt.traceStmts Stmt.callEvents body.statements
    { span := d.span, enclosingType := some type, enclosingMethod := some d.ref }

def TypeDecl.hookCalls (d : TypeDecl) : List HookCall :=
  d.fields.flatMap (·.hookCalls d.ref) ++ d.methods.flatMap (·.hookCalls d.ref)

/-- The calls for a unit. -/
def CompilationUnit.hookCalls (u : CompilationUnit) : List HookCall :=
  u.types.flatMap TypeDecl.hookCalls

/-! ## The place of a call -/

theorem site_of_mem_callsAt {demands : List Demand} {site : Site} {call : HookCall}
    (h : call ∈ callsAt demands site) : call.site = site := by
  obtain ⟨_, _, rfl⟩ := List.mem_map.mp h
  rfl

/-- Expressions have no place of their own, however deep they are nested. -/
theorem Expr.site_of_mem_hookCalls {e : Expr} {site : Site} {call : HookCall}
    (h : call ∈ e.hookCalls site) : call.site = site := by
  obtain ⟨_, hcall⟩ := Expr.exists_of_mem_trace h
  exact site_of_mem_callsAt hcall

theorem Stmt.site_of_mem_directTrace {s : Stmt} {site : Site} {call : HookCall}
    (h : call ∈ s.directTrace Stmt.callEvents site) : call.site = site := by
  rcases List.mem_append.mp h with h | h
  · obtain ⟨e, _, he⟩ := List.mem_flatMap.mp h
    exact Expr.site_of_mem_hookCalls he
  · exact site_of_mem_callsAt h

/-- The call comes from a field, or directly from a statement and not from one
inside it, and the site says so. -/
inductive HookCall.ArisesIn (u : CompilationUnit) (call : HookCall) : Prop where
  | field {d : TypeDecl} {f : FieldDecl} : d ∈ u.types → f ∈ d.fields →
      call ∈ f.hookCalls d.ref →
      call.site = { span := f.span, enclosingType := some d.ref, enclosingMethod := none } →
      ArisesIn u call
  | statement {d : TypeDecl} {m : MethodDecl} {s : Stmt} : d ∈ u.types → m ∈ d.methods →
      s ∈ m.statements → call ∈ s.directTrace Stmt.callEvents call.site →
      call.site = { span := s.span, enclosingType := some d.ref, enclosingMethod := some m.ref } →
      ArisesIn u call

theorem FieldDecl.site_of_mem_hookCalls {f : FieldDecl} {type : ClassRef} {call : HookCall}
    (h : call ∈ f.hookCalls type) :
    call.site = { span := f.span, enclosingType := some type, enclosingMethod := none } := by
  rcases List.mem_append.mp h with h | h
  · obtain ⟨e, _, he⟩ := List.mem_flatMap.mp h
    exact Expr.site_of_mem_hookCalls he
  · exact site_of_mem_callsAt h

/-- A call that is listed for a method comes directly from one of its statements. The span of the
site is that of the innermost statement, even if this is the empty span. -/
theorem MethodDecl.exists_of_mem_hookCalls {d : MethodDecl} {type : ClassRef} {call : HookCall}
    (h : call ∈ d.hookCalls type) :
    ∃ s ∈ d.statements, call ∈ s.directTrace Stmt.callEvents call.site ∧
      call.site =
        { span := s.span, enclosingType := some type, enclosingMethod := some d.ref } := by
  obtain ⟨body, hbody, h⟩ := List.mem_flatMap.mp h
  rw [Stmt.traceStmts_eq_flatMap] at h
  obtain ⟨s, hs, h⟩ := List.mem_flatMap.mp h
  -- Entering a statement replaces the span and nothing else.
  obtain ⟨t, ht, hcall⟩ := Stmt.exists_of_mem_trace (fun _ _ _ => rfl) h
  -- The place of the body is gone: each statement in it sets its own.
  have hsite := Stmt.site_of_mem_directTrace hcall
  refine ⟨t, ?_, hsite.symm ▸ hcall, hsite⟩
  exact List.mem_flatMap.mpr ⟨body, hbody, List.mem_flatMap.mpr ⟨s, hs, ht⟩⟩

/-- Every call that is listed for a unit arises in a field or directly in a statement of it, and the
site of the call names this place. -/
theorem CompilationUnit.arisesIn_of_mem_hookCalls {u : CompilationUnit} {call : HookCall}
    (h : call ∈ u.hookCalls) : call.ArisesIn u := by
  obtain ⟨d, hd, h⟩ := List.mem_flatMap.mp h
  rcases List.mem_append.mp h with h | h
  -- Fields come before methods, as in the traversal.
  · obtain ⟨f, hf, hcall⟩ := List.mem_flatMap.mp h
    exact .field hd hf hcall (FieldDecl.site_of_mem_hookCalls hcall)
  · obtain ⟨m, hm, hcall⟩ := List.mem_flatMap.mp h
    obtain ⟨s, hs, hdirect, hsite⟩ := MethodDecl.exists_of_mem_hookCalls hcall
    exact .statement hd hm hs hdirect hsite

end Lowering
