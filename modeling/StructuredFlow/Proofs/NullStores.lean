import StructuredFlow.Proofs.AdmittedValues
import StructuredFlow.Proofs.SwitchOpenings

/-
  Where null can be stored. A null constant is taken by places of reference types, and besides by
  places of the very type that the constant gives itself (`Builder.Accepts.of_null`); so it is the
  types of null constants that keep null out of bools and numbers. In a program that does without
  host calls, conversions and walks over lists, and that stores no null constant of a primitive
  type, no variable of a primitive type is ever null (`Builder.Reachable.null_stores`).
-/

namespace StructuredFlow

open Outcome Machine Exec

open Build (Suits)

/-! ## Null constants and places -/

theorem Build.suits_null_iff {ty place : Ty} :
    Suits place (.null ty) ↔ place.isReference = true ∨ place = ty := by
  constructor
  · rintro (⟨-, hreference⟩ | haccepts)
    · exact .inl hreference
    · rcases Ty.accepts_iff.mp haccepts with rfl | ⟨rfl, -⟩
      · exact .inr rfl
      · exact .inl rfl
  · rintro (hreference | rfl)
    · exact .inl ⟨rfl, hreference⟩
    · exact .inr (Ty.accepts_self _)

/-- Nothing is put in the place of a constant. -/
theorem Fragment.eq_const_of_resolveIn {scope : Fragment.Context} {f : Fragment} {c : Constant}
    {e : Expr} (hf : f.body = .const c) (h : f.resolveIn scope = .ok e) : e = .const c := by
  obtain ⟨r, r', -, hbody⟩ := resolveIn_ok h
  obtain ⟨rfl, -⟩ := Expr.filled_of_resolve hbody
  rw [hf]
  rfl

namespace Builder

variable {b b' : Builder} {f : Fragment} {ty found : Ty}

/-- Some operation accepts the fragment for a place of the type: the variable that is assigned or
that holds a resource, the end of the program, or the discriminant of a switch. -/
inductive Accepts (b : Builder) (f : Fragment) : Ty → Prop
  | assign {id name ty b'} (done : Build.assign id name ty f b = .ok () b') : Accepts b f ty
  | resource {id name ty body b'} (done : Build.openUsing id name ty f b = .ok body b') :
      Accepts b f ty
  | returnValue {id ty b'} (done : Build.returnValue id ty f b = .ok () b') : Accepts b f ty
  | group {site discriminant groups default k b'}
      (place : b.at? site = some (.switch discriminant groups default))
      (done : Build.openGroup site f b = .ok k b') : Accepts b f discriminant.type
  | value {site discriminant groups default k b'}
      (place : b.at? site = some (.switch discriminant groups default))
      (done : Build.widenGroup site k f b = .ok () b') : Accepts b f discriminant.type

/-- What is matched with the values of a switch suits its discriminant. -/
theorem suits_of_caseStep {site : Site} {discriminant : Expr} {groups : List (Arm (Option Scope))}
    {default : Option (Label × Scope)} {step : CaseStep}
    (place : b.at? site = some (.switch discriminant groups default))
    (done : Build.caseStep site step b = .ok () b') :
    ∃ scope e, step.fragment.resolveIn scope = .ok e ∧ Suits discriminant.type e := by
  obtain ⟨v, groups', default', e, place', matched, -⟩ := Build.caseStep_ok.mp done
  obtain ⟨rfl, -, -⟩ : discriminant = v ∧ groups = groups' ∧ default = default' := by
    simpa using place.symm.trans place'
  obtain ⟨-, resolved, suits, -⟩ := Build.matchValue_ok.mp matched
  exact ⟨_, e, resolved, suits⟩

/-- A fragment that is accepted resolves to what suits the type. -/
theorem Accepts.suits (h : b.Accepts f ty) : ∃ scope e, f.resolveIn scope = .ok e ∧ Suits ty e := by
  cases h with
  | assign done | resource done =>
    obtain ⟨e, resolved, done⟩ := (Build.resolve_reads _ f).andThen_ok done
    obtain ⟨_, suits, -⟩ := (Build.requireType_reads ty e).andThen_ok done
    exact ⟨_, e, (Build.resolve_ok.mp resolved).2.1, (Build.requireType_ok.mp suits).1⟩
  | returnValue done =>
    obtain ⟨_, hreturn, checked⟩ := (Build.requireReturn_reads ty).andThen_ok done
    obtain ⟨rfl, -⟩ := Build.requireReturn_ok.mp hreturn
    obtain ⟨e, resolved, stored⟩ := (Build.resolve_reads _ f).andThen_ok checked
    refine ⟨_, e, (Build.resolve_ok.mp resolved).2.1, ?_⟩
    rw [get_andThen] at stored
    rcases ite_run.mp stored with ⟨hnull, -⟩ | ⟨-, stored⟩
    · exact .inl (Bool.and_eq_true_iff.mp hnull)
    · obtain ⟨_, htype, -⟩ := (Build.requireReturn_reads e.type).andThen_ok stored
      exact Build.suits_of_type (Build.requireReturn_ok.mp htype).1
  | @group site discriminant groups default k b' place done =>
    have taken : Build.caseStep site (.group f) b = .ok () b' :=
      andThen_ok.mpr ⟨k, b', done, rfl⟩
    exact suits_of_caseStep place taken
  | @value site discriminant groups default k b' place done =>
    have taken : Build.caseStep site (.value k f) b = .ok () b' := done
    exact suits_of_caseStep place taken

/-- A null constant is accepted where there are references, and where its own type is asked for. -/
theorem Accepts.of_null (h : b.Accepts f ty) (hf : f.body = .null found) :
    ty.isReference = true ∨ ty = found := by
  obtain ⟨scope, e, resolved, suits⟩ := h.suits
  obtain rfl := Fragment.eq_const_of_resolveIn hf resolved
  exact Build.suits_null_iff.mp suits

end Builder

/-! ## Runs -/

/-- The variables of primitive types hold values of these, so they are not null. -/
def Machine.PrimitivesSet {ω : Type} (symbols : List Symbol) (m : Machine ω) : Prop :=
  ∀ s ∈ symbols, s.ty.isPrimitive = true → ∀ v, m.env.get? s.id = some v →
    v ≠ .null ∧ m.heap.Conforms s.ty v

theorem Machine.Holds.primitivesSet {ω : Type} {symbols : List Symbol} {m : Machine ω}
    (hm : m.Holds Heap.Admits symbols) : m.PrimitivesSet symbols :=
  fun s hs hty v hv => ⟨(hm s hs v hv).ne_null hty, (hm s hs v hv).conforms hty⟩

namespace Builder

variable {ω : Type} {b : Builder} {a : Artifact}

/-- What a plain program stores is admitted by its type, if it is no null constant of a primitive
one. -/
theorem stored_admits (hplain : ∀ n ∈ a.body.subnodes, ∀ e ∈ n.reads, e.Plain b.symbols)
    (hnulls : ∀ target found, .assign target (.null found) ∈ a.body.subnodes →
      found.isPrimitive = false)
    {target : Symbol} {e : Expr} {m₁ m₂ : Machine ω} {v : Value}
    (hn : .assign target e ∈ a.body.subnodes) (hm₁ : m₁.Holds Heap.Admits b.symbols)
    (hv : e.eval m₁ = .ok v m₂) : m₂.heap.Admits e.type v := by
  have he := hplain _ hn e (List.mem_singleton_self e)
  rcases he.eval_admits hm₁ hv with ⟨found, rfl, rfl⟩ | hadmits
  · exact Heap.admits_null_iff.mpr (hnulls target found hn)
  · exact hadmits

/-- Null is kept out of places that have no references, but for constants that are typed as such a
null. Whatever operation of whatever builder accepts a null constant for a place, either there are
references in places of that type, or the constant is declared to be of that very type. And in every
program without host calls, conversions and walks over lists, whose expressions speak of its own
variables and that assigns no null constant of a primitive type, the variables of primitive types
hold values of their types, and not null, wherever a node is started, where it has ended, and where
an expression is evaluated. -/
theorem Reachable.null_stores (hb : b.Reachable) (ha : b.assemble = .ok a) (args : List Value)
    (m : Machine ω) (hargs : ∀ p ∈ a.params.zip args, m.heap.Conforms p.1.ty p.2)
    (hplain : ∀ n ∈ a.body.subnodes, ∀ e ∈ n.reads, e.Plain b.symbols)
    (hnulls : ∀ target found, .assign target (.null found) ∈ a.body.subnodes →
      found.isPrimitive = false) :
    (∀ (b' : Builder) (f : Fragment) (place found : Ty), b'.Accepts f place →
        f.body = .null found → place.isReference = true ∨
          place = found ∧ found.isReference = false) ∧
      (∀ fuel around caught c, a.Visits args m fuel around caught c →
        c.machine.PrimitivesSet b.symbols ∧
          (final (c.result (Node.execWithin fuel))).PrimitivesSet b.symbols) ∧
        ∀ e m₁, a.Evaluates args m e m₁ → m₁.PrimitivesSet b.symbols := by
  have hargs : ∀ p ∈ a.params.zip args, m.heap.Admits p.1.ty p.2 :=
    fun p hp => (hargs p hp).admits
  have hvalues : ∀ target e m₁ v m₂, .assign target e ∈ a.body.subnodes →
      a.Evaluates args m e m₁ → m₁.Holds Heap.Admits b.symbols → e.eval m₁ = .ok v m₂ →
        m₂.heap.Admits e.type v :=
    fun _ _ _ _ _ hn _ hm₁ hv => stored_admits hplain hnulls hn hm₁ hv
  refine ⟨fun b' f place found accepts hf => ?_, fun fuel around caught c hc => ?_,
    fun e m₁ he => ?_⟩
  · rcases accepts.of_null hf with hreference | rfl
    · exact .inl hreference
    · cases hreference : place.isReference with
      | true => exact .inl rfl
      | false => exact .inr ⟨rfl, rfl⟩
  · have hholds := hb.built.visits_hold ha Heap.storable_admits hargs hvalues hc
    exact ⟨hholds.1.primitivesSet, hholds.2.primitivesSet⟩
  · exact (hb.built.evaluates_hold ha Heap.storable_admits hargs hvalues he).primitivesSet

/-- A null for a variable of type `any`, next to a number. -/
theorem null_stored_in_reference :
    ∃ (b b' : Builder) (a : Artifact) (x y : Symbol) (m m' : Machine Unit),
      b'.Accepts ⟨[], .null .str⟩ .any ∧ b.Reachable ∧ b.assemble = .ok a ∧
        a.run [] m = .ok .void m' ∧ y ∈ b.symbols ∧ m'.env.get? y.id = some .null ∧
          x ∈ b.symbols ∧ x.ty = .int ∧ m'.env.get? x.id = some (.int 5) ∧
            (Ty.any.isReference = true ∨ Ty.any = .str ∧ Ty.str.isReference = false) ∧
              m'.PrimitivesSet b.symbols := by
  obtain ⟨b', hb⟩ : ∃ b, Builder.create ⟨"f", false⟩ [] .void = .ok b := ⟨_, rfl⟩
  have hnull := (Reachable.create hb).statement 0 (.assign "y" .any ⟨[], .null .str⟩)
  have hfive := hnull.statement 0 (.assign "x" .int ⟨[], .const (.int 5)⟩)
  have haccepts : b'.Accepts ⟨[], .null .str⟩ .any := by
    cases hb
    exact @Accepts.assign _ _ 0 "y" .any _ rfl
  cases hb
  let y : Symbol := ⟨0, some "y", .any⟩
  let x : Symbol := ⟨1, some "x", .int⟩
  let a : Artifact := ⟨"f", [], .typed 0 .void, .block []
    [.block [y, x] [.assign y (.null .str), .assign x (.const (.int 5))],
      .label (.typed 0 .void) none]⟩
  obtain ⟨b, hb, hsymbols, hassemble⟩ :
      ∃ b : Builder, b.Reachable ∧ b.symbols = [y, x] ∧ b.assemble = .ok a :=
    ⟨_, hfive, rfl, rfl⟩
  have hplain : ∀ n ∈ a.body.subnodes, ∀ e ∈ n.reads, e.Plain b.symbols := by
    simp [a, Node.subnodes_eq, Node.children, Node.reads, Expr.null, Expr.Plain.const]
  have hnulls : ∀ target found, .assign target (.null found) ∈ a.body.subnodes →
      found.isPrimitive = false := by
    intro target found hmem
    obtain ⟨-, rfl⟩ : target = y ∧ found = .str := by
      simpa [a, Node.subnodes_eq, Node.children, Expr.null] using hmem
    rfl
  let m : Machine Unit := .new .empty () 20
  let m' : Machine Unit := { m with env := ⟨[(0, .null), (1, .int 5)]⟩, steps := 5 }
  have hresult : (a.entry [] m).result (Node.execWithin 21) = .ok (.normal .void) m' := rfl
  have hrun : a.run [] m = .ok .void m' := rfl
  have hc : a.Visits [] m 21 [] [] (a.entry [] m) := ⟨rfl, .here⟩
  have hargs : ∀ p ∈ a.params.zip [], m.heap.Conforms p.1.ty p.2 := List.forall_mem_nil _
  obtain ⟨haccepted, hvisits, -⟩ := hb.null_stores hassemble [] m hargs hplain hnulls
  have hkept := (hvisits _ _ _ _ hc).2
  rw [hresult] at hkept
  refine ⟨b, _, a, x, y, m, m', haccepts, hb, hassemble, hrun, ?_, rfl, ?_, rfl, rfl,
    haccepted _ _ .any .str haccepts rfl, hkept⟩
  · exact hsymbols ▸ List.mem_cons_self
  · exact hsymbols ▸ List.mem_cons_of_mem _ List.mem_cons_self

/-- A null constant of type `int` is accepted for a variable of type `int`, which is null then. -/
theorem null_stored_in_int :
    ∃ (b b' : Builder) (a : Artifact) (x : Symbol) (m m' : Machine Unit),
      b'.Accepts ⟨[], .null .int⟩ .int ∧ Ty.int.isReference = false ∧ b.Reachable ∧
        b.assemble = .ok a ∧ a.run [] m = .ok .null m' ∧ x ∈ b.symbols ∧ x.ty = .int ∧
          m'.env.get? x.id = some .null := by
  obtain ⟨b', hb⟩ : ∃ b, Builder.create ⟨"f", false⟩ [] .int = .ok b := ⟨_, rfl⟩
  have hnull := (Reachable.create hb).statement 0 (.assign "x" .int ⟨[], .null .int⟩)
  have hreturn := hnull.statement 0 (.returnValue .int ⟨[⟨"x", .int⟩], .param ⟨"x", .int⟩⟩)
  have haccepts : b'.Accepts ⟨[], .null .int⟩ .int := by
    cases hb
    exact @Accepts.assign _ _ 0 "x" .int _ rfl
  cases hb
  let x : Symbol := ⟨0, some "x", .int⟩
  let a : Artifact := ⟨"f", [], .typed 0 .int, .block []
    [.block [x] [.assign x (.null .int), .goto (.typed 0 .int) (some (.var x))],
      .label (.typed 0 .int) (some (.int 0))]⟩
  obtain ⟨b, hb, hsymbols, hassemble⟩ :
      ∃ b : Builder, b.Reachable ∧ b.symbols = [x] ∧ b.assemble = .ok a :=
    ⟨_, hreturn, rfl, rfl⟩
  refine ⟨b, _, a, x, .new .empty () 20, _, haccepts, rfl, hb, hassemble, rfl, ?_, rfl, rfl⟩
  exact hsymbols ▸ List.mem_cons_self

end Builder

end StructuredFlow
