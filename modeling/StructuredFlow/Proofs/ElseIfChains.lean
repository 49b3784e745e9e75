import Mathlib.Data.List.Pairwise
import StructuredFlow.Proofs.ForeignSymbols
import StructuredFlow.Proofs.NodeOutcomes
import StructuredFlow.Proofs.Sites

/-
  The law of conditionals with any number of tests. `Links.Means` says what a chain of tests comes
  to: they are evaluated in order, up to the first that does not give false, and its branch is
  executed; if all are false the alternative is, if there is one. The node of a conditional means
  just this (`Node.ofLinks_yields_iff`). A conditional grows at its end alone, so the tests are in
  the order in which they came in (`Builder.HasLinks`), and all of them, and all branches, see what
  the scope of the conditional sees and nothing of each other (`Builder.LinksApart`).
-/

namespace StructuredFlow

variable {ω : Type}

open Exec Outcome

/-! ## What links mean -/

namespace Links

/-- The tests are evaluated in their order, and all of them are false. -/
inductive Refused : List (Expr × Node) → Machine ω → Machine ω → Prop
  | nil {m} : Refused [] m m
  | cons {l links m m₁ m₂} (test : l.1.eval m = .ok (.bool false) m₁)
      (rest : Refused links m₁ m₂) : Refused (l :: links) m m₂

/-- What a chain of tests comes to: the branch of the first test that is true decides, or the
alternative if all are false; a test that gives no truth value ends the chain. -/
inductive Means (links : List (Expr × Node)) (otherwise : Option Node) (m : Machine ω) :
    Report ω → Prop
  | holds {before l after m₁ m₂ r} (order : links = before ++ l :: after)
      (refused : Refused before m m₁) (test : l.1.eval m₁ = .ok (.bool true) m₂)
      (run : l.2.Yields none m₂ r) : Means links otherwise m r
  | alternative {n m₁ r} (given : otherwise = some n) (refused : Refused links m m₁)
      (run : n.Yields none m₁ r) : Means links otherwise m r
  | nothing {m₁} (given : otherwise = none) (refused : Refused links m m₁) :
      Means links otherwise m (.ok (.normal .void) m₁)
  | raises {before l after m₁ v m₂} (order : links = before ++ l :: after)
      (refused : Refused before m m₁) (test : l.1.eval m₁ = .error (.thrown v) m₂) :
      Means links otherwise m (.ok (.throw v) m₂)
  | stops {before l after m₁ e m₂} (order : links = before ++ l :: after)
      (refused : Refused before m m₁) (test : l.1.eval m₁ = .error e m₂)
      (cause : ∀ v, e ≠ .thrown v) : Means links otherwise m (.error e m₂)
  | untestable {before l after m₁ v m₂} (order : links = before ++ l :: after)
      (refused : Refused before m m₁) (test : l.1.eval m₁ = .ok v m₂) (kind : ∀ b, v ≠ .bool b) :
      Means links otherwise m (.error (.typeError (.test v)) m₂)

variable {l : Expr × Node} {links : List (Expr × Node)} {otherwise : Option Node}
  {m m₁ : Machine ω} {r : Report ω}

/-- A test that is false leaves the rest of the chain. -/
theorem Means.cons (test : l.1.eval m = .ok (.bool false) m₁)
    (rest : Means links otherwise m₁ r) : Means (l :: links) otherwise m r := by
  cases rest with
  | holds order refused test' run =>
    exact .holds (congrArg (l :: ·) order) (.cons test refused) test' run
  | alternative given refused run => exact .alternative given (.cons test refused) run
  | nothing given refused => exact .nothing given (.cons test refused)
  | raises order refused test' =>
    exact .raises (congrArg (l :: ·) order) (.cons test refused) test'
  | stops order refused test' cause =>
    exact .stops (congrArg (l :: ·) order) (.cons test refused) test' cause
  | untestable order refused test' kind =>
    exact .untestable (congrArg (l :: ·) order) (.cons test refused) test' kind

/-- What a chain comes to is decided by its first test, or by what the rest of the chain comes to if
the test is false. -/
theorem means_cons :
    Means (l :: links) otherwise m r ↔
      (∃ m₁, l.1.eval m = .ok (.bool true) m₁ ∧ l.2.Yields none m₁ r) ∨
        (∃ m₁, l.1.eval m = .ok (.bool false) m₁ ∧ Means links otherwise m₁ r) ∨
        (∃ v m₁, l.1.eval m = .error (.thrown v) m₁ ∧ r = .ok (.throw v) m₁) ∨
        (∃ e m₁, l.1.eval m = .error e m₁ ∧ (∀ v, e ≠ .thrown v) ∧ r = .error e m₁) ∨
        ∃ v m₁, l.1.eval m = .ok v m₁ ∧ (∀ b, v ≠ .bool b) ∧
          r = .error (.typeError (.test v)) m₁ := by
  constructor
  · intro h
    -- The links in front of the one that decides are none, or begin with this one.
    have split : ∀ {before after : List (Expr × Node)} {d : Expr × Node} {m₂ : Machine ω},
        l :: links = before ++ d :: after → Refused before m m₂ →
        (l = d ∧ m = m₂) ∨ ∃ m₁ rest, l.1.eval m = .ok (.bool false) m₁ ∧
          links = rest ++ d :: after ∧ Refused rest m₁ m₂ := by
      intro before after d m₂ order refused
      cases refused with
      | nil => exact .inl ⟨(List.cons.inj order).1, rfl⟩
      | cons test refused =>
        obtain ⟨rfl, hrest⟩ := List.cons.inj order
        exact .inr ⟨_, _, test, hrest, refused⟩
    cases h with
    | holds order refused test run =>
      rcases split order refused with ⟨rfl, rfl⟩ | ⟨m₁, rest, test₁, order, refused⟩
      · exact .inl ⟨_, test, run⟩
      · exact .inr (.inl ⟨m₁, test₁, .holds order refused test run⟩)
    | alternative given refused run =>
      cases refused with
      | cons test refused => exact .inr (.inl ⟨_, test, .alternative given refused run⟩)
    | nothing given refused =>
      cases refused with
      | cons test refused => exact .inr (.inl ⟨_, test, .nothing given refused⟩)
    | raises order refused test =>
      rcases split order refused with ⟨rfl, rfl⟩ | ⟨m₁, rest, test₁, order, refused⟩
      · exact .inr (.inr (.inl ⟨_, _, test, rfl⟩))
      · exact .inr (.inl ⟨m₁, test₁, .raises order refused test⟩)
    | stops order refused test cause =>
      rcases split order refused with ⟨rfl, rfl⟩ | ⟨m₁, rest, test₁, order, refused⟩
      · exact .inr (.inr (.inr (.inl ⟨_, _, test, cause, rfl⟩)))
      · exact .inr (.inl ⟨m₁, test₁, .stops order refused test cause⟩)
    | untestable order refused test kind =>
      rcases split order refused with ⟨rfl, rfl⟩ | ⟨m₁, rest, test₁, order, refused⟩
      · exact .inr (.inr (.inr (.inr ⟨_, _, test, kind, rfl⟩)))
      · exact .inr (.inl ⟨m₁, test₁, .untestable order refused test kind⟩)
  · rintro (⟨m₁, test, run⟩ | ⟨m₁, test, rest⟩ | ⟨v, m₁, test, rfl⟩ | ⟨e, m₁, test, cause, rfl⟩ |
      ⟨v, m₁, test, kind, rfl⟩)
    · exact .holds (List.nil_append _).symm .nil test run
    · exact rest.cons test
    · exact .raises (List.nil_append _).symm .nil test
    · exact .stops (List.nil_append _).symm .nil test cause
    · exact .untestable (List.nil_append _).symm .nil test kind

end Links

namespace Node

variable {m : Machine ω} {r : Report ω}

/-- A chain of links means what it is meant to. -/
theorem ofLinks_yields_iff {links : List (Expr × Node)} {otherwise : Option Node} :
    (ofLinks links (otherwise.getD .nop)).Yields none m r ↔ Links.Means links otherwise m r := by
  induction links generalizing m with
  | nil =>
    constructor
    · intro h
      cases otherwise with
      | none =>
        obtain rfl := Turn.comes_done.mp (yields_iff_comes.mp h)
        exact .nothing rfl .nil
      | some n => exact .alternative rfl .nil h
    · intro h
      cases h with
      | alternative given refused run =>
        cases refused
        exact given ▸ run
      | nothing given refused =>
        cases refused
        exact given ▸ yields_iff_comes.mpr (Turn.comes_done.mpr rfl)
      | holds order | raises order | stops order | untestable order =>
        exact absurd order (by simp)
  | cons l links ih =>
    rw [Links.means_cons]
    simp only [← ih]
    exact branch_yields_iff

end Node

/-! ## Conditionals that grow -/

namespace Builder

variable {F : Fragment → Prop} {b b' : Builder} {site : Site} {links : List (Expr × Scope)}
  {otherwise : Option Scope}

/-- The tests of links, each with the number of the scope of its branch. -/
def linkKeys (links : List (Expr × Scope)) : List (Expr × ScopeId) :=
  links.map fun l => (l.1, l.2.frame.id)

/-- A conditional as it is later on: it may have got more links at its end, and an alternative, after
which it gets no more links. -/
structure LinksKept (links links' : List (Expr × Scope)) (otherwise otherwise' : Option Scope) :
    Prop where
  front : linkKeys links <+: linkKeys links'
  last : ∀ c ∈ otherwise, linkKeys links' = linkKeys links ∧
    ∃ c' ∈ otherwise', c'.frame.id = c.frame.id

theorem LinksKept.trans {links' links'' : List (Expr × Scope)}
    {otherwise' otherwise'' : Option Scope} (h : LinksKept links links' otherwise otherwise')
    (h' : LinksKept links' links'' otherwise' otherwise'') :
    LinksKept links links'' otherwise otherwise'' where
  front := h.front.trans h'.front
  last c hc := by
    obtain ⟨hlinks, c', hc', hid⟩ := h.last c hc
    obtain ⟨hlinks', c'', hc'', hid'⟩ := h'.last c' hc'
    exact ⟨hlinks'.trans hlinks, c'', hc'', hid'.trans hid⟩

theorem Edit.at?_conditional (h : b.Edit F b') (hb : b.Built F)
    (hat : b.at? site = some (.conditional links otherwise)) :
    ∃ links' otherwise', b'.at? site = some (.conditional links' otherwise') ∧
      LinksKept links links' otherwise otherwise' := by
  obtain ⟨stmt, hat', ⟨g, hg, rfl⟩ | ⟨_, _, -, grows⟩⟩ := h.at?_becomes hb hat
  · have hkeys : linkKeys (links.map fun l => (l.1, g l.2)) = linkKeys links := by
      rw [linkKeys, List.map_map]
      exact List.map_congr_left fun l _ => congrArg (Prod.mk l.1) (hg l.2)
    refine ⟨_, _, hat', hkeys ▸ List.prefix_refl _, fun c hc => ⟨hkeys, g c, ?_, hg c⟩⟩
    exact Option.mem_map_of_mem g hc
  · cases grows with
    | otherwise => exact ⟨_, _, hat', List.prefix_refl _, by simp⟩
    | link =>
      refine ⟨_, _, hat', ?_, by simp⟩
      rw [linkKeys, linkKeys, List.map_append]
      exact List.prefix_append _ _

/-- A conditional keeps its links and its alternative. -/
theorem Edits.at?_conditional (h : b.Edits F b') (hb : b.Built F)
    (hat : b.at? site = some (.conditional links otherwise)) :
    ∃ links' otherwise', b'.at? site = some (.conditional links' otherwise') ∧
      LinksKept links links' otherwise otherwise' := by
  induction h with
  | refl =>
    exact ⟨links, otherwise, hat, List.prefix_refl _, fun c hc => ⟨rfl, c, hc, rfl⟩⟩
  | edit edits edit ih =>
    obtain ⟨links', otherwise', hat', hkept⟩ := ih
    obtain ⟨links'', otherwise'', hat'', hkept'⟩ := edit.at?_conditional (hb.edits edits) hat'
    exact ⟨links'', otherwise'', hat'', hkept.trans hkept'⟩

/-- What a fragment was resolved to it is resolved to later on, where the chain is kept. -/
theorem Settles.later {c c' : Chain} {e : Expr} (h : b.Settles F c e) (edit : b.Edit F b')
    (kept : c.Kept c') : b'.Settles F c' e := by
  have hoptions := edit.edits.options_eq
  rw [Settles, hoptions]
  exact Settles.kept h ⟨kept.lookup, kept.isVisible, rfl⟩

/-- Each test of a conditional was resolved in the scope that the conditional stands in. -/
theorem Built.tests_settled (hb : b.Built F) {outer : Chain} {s : Scope}
    (hs : b.top.Within outer s) (hstmt : .conditional links otherwise ∈ s.stmts) :
    ∀ l ∈ links, b.Settles F (s.frame :: outer) l.1 ∧ Build.Suits .bool l.1 := by
  induction hb generalizing outer s links otherwise with
  | empty options returnType =>
    rcases hs.cases_root with ⟨-, rfl⟩ | ⟨c, hc, -⟩
    · exact absurd hstmt List.not_mem_nil
    · exact absurd hc List.not_mem_nil
  | @edit b b' built edit ih =>
    have hnumbered := built.numbered
    obtain ⟨n, hn, -⟩ | ⟨o, u, hu, hid, horigin⟩ := edit.stmt_origin hnumbered hs hstmt
    · cases hn
    obtain ⟨c', hc', kept⟩ := edit.chain_kept hnumbered (hu.chain?_eq hnumbered.distinct)
    rw [hid, hs.chain?_eq (built.edit edit).numbered.distinct] at hc'
    cases hc'
    have later : ∀ {e : Expr}, b.Settles F (u.frame :: o) e ∧ Build.Suits .bool e →
        b'.Settles F (s.frame :: outer) e ∧ Build.Suits .bool e :=
      fun h => ⟨h.1.later edit kept, h.2⟩
    rcases horigin with ⟨old, hold, g, hg⟩ | ⟨old, hold, b₁, grows⟩ | ⟨stmts, b₁, adds, hadded⟩
    · cases old with
      | conditional links' otherwise' =>
        cases hg
        exact List.forall_mem_map.mpr fun l hl => later (ih hu hold l hl)
      | _ => cases hg
    · cases grows with
      | otherwise => exact fun l hl => later (ih hu hold l hl)
      | link settled suits =>
        refine List.forall_mem_append.mpr ⟨fun l hl => later (ih hu hold l hl), ?_⟩
        exact List.forall_mem_singleton.mpr (later ⟨settled, suits⟩)
    · cases adds with
      | conditional settled suits =>
        cases List.mem_singleton.mp hadded
        exact List.forall_mem_singleton.mpr (later ⟨settled, suits⟩)
      | doWhile =>
        rcases List.mem_cons.mp hadded with hadded | hadded
        · cases hadded
        · cases List.mem_singleton.mp hadded
      | _ => cases List.mem_singleton.mp hadded

end Builder

namespace Build

open Builder

variable {F : Fragment → Prop} {b b' : Builder} {id r : ScopeId} {site : Site} {test : Fragment}

/-- A conditional is put in with one link, whose test is resolved where it is put in. -/
theorem openIf_at? (hb : b.Built F) (hF : F test) (h : openIf id test b = .ok (site, r) b') :
    ∃ v, condition id test b = .ok v b ∧ r = (b.newScope .plain).frame.id ∧ b'.Built F ∧
      b'.at? site = some (.conditional [(v, b.newScope .plain)] none) := by
  have hb' : b'.Built F := hb.edits ((openIf_keeps id hF).done hb h)
  obtain ⟨v, hv, h⟩ := (condition_reads id test).andThen_ok h
  simp only [andThen_ok, makeScope_ok, pushConstruct_ok, pure_ok] at h
  obtain ⟨_, _, ⟨rfl, rfl⟩, _, _, ⟨s, hs, rfl, rfl⟩, hr, rfl⟩ := h
  cases hr
  have hat := at?_addStmts [.conditional [(v, b.newScope .plain)] none] hb.numbered hb'.numbered hs
    rfl 0
  exact ⟨v, hv, rfl, hb', hat.2⟩

/-- A further test is resolved where the conditional stands, and its link comes behind the others. -/
theorem openElseIf_at? (hb : b.Built F) (hF : F test) (h : openElseIf site test b = .ok r b') :
    ∃ links v, b.at? site = some (.conditional links none) ∧
      condition site.scope test b = .ok v b ∧ r = (b.newScope .plain).frame.id ∧ b'.Built F ∧
      b'.at? site = some (.conditional (links ++ [(v, b.newScope .plain)]) none) := by
  have hb' : b'.Built F := hb.edits ((openElseIf_keeps site hF).done hb h)
  obtain ⟨old, hold, h⟩ := (construct?_reads site).andThen_ok h
  have hold := site_of_construct? hold
  split at h
  next links _ =>
    obtain ⟨v, hv, h⟩ := (condition_reads _ test).andThen_ok h
    simp only [andThen_ok, makeScope_ok, replaceConstruct_ok, pure_ok] at h
    obtain ⟨_, _, ⟨rfl, rfl⟩, _, _, rfl, rfl, rfl⟩ := h
    obtain ⟨c, hc, settled, suits⟩ := condition_settles hF hv
    have grows : b.Grows F c (.conditional links none)
        (.conditional (links ++ [(v, b.newScope .plain)]) none) _ := .link settled suits
    exact ⟨links, v, hold.symm, hv, rfl, hb',
      grows.at?_setStmt hb.numbered hb'.numbered hold.symm rfl⟩
  · exact (throw_ok.mp h).elim
  · exact (throw_ok.mp h).elim

/-- An alternative leaves the links as they are. -/
theorem openElse_at? (hb : b.Built F) (h : openElse site b = .ok r b') :
    ∃ links, b.at? site = some (.conditional links none) ∧ r = (b.newScope .plain).frame.id ∧
      b'.Built F ∧ b'.at? site = some (.conditional links (some (b.newScope .plain))) := by
  have hb' : b'.Built F := hb.edits ((openElse_keeps site).done hb h)
  obtain ⟨old, hold, h⟩ := (construct?_reads site).andThen_ok h
  have hold := site_of_construct? hold
  split at h
  next links _ =>
    simp only [andThen_ok, makeScope_ok, replaceConstruct_ok, pure_ok] at h
    obtain ⟨_, _, ⟨rfl, rfl⟩, _, _, rfl, rfl, rfl⟩ := h
    have grows : b.Grows F [] (.conditional links none)
        (.conditional links (some (b.newScope .plain))) _ := .otherwise
    exact ⟨links, hold.symm, rfl, hb',
      grows.at?_setStmt hb.numbered hb'.numbered hold.symm rfl⟩
  · exact (throw_ok.mp h).elim
  · exact (throw_ok.mp h).elim

end Build

/-! ## Conditionals of the program -/

namespace Builder

variable {b b₀ b₁ : Builder} {outer : Chain} {s : Scope} {i : Nat} {site : Site}
  {links : List (Expr × Scope)} {otherwise : Option Scope}

/-- The links came in one behind another. Each test was resolved, when it came in, in the scope that
the conditional stands in. -/
structure LinksAdded (b : Builder) (site : Site) (links : List (Expr × Scope))
    (otherwise : Option Scope) : Prop where
  first : ∀ b₀ b₁ test id, b₀.Reachable → b₁.Later b →
    Build.openIf site.scope test b₀ = .ok (site, id) b₁ →
    ∃ v, Build.condition site.scope test b₀ = .ok v b₀ ∧ [(v, id)] <+: linkKeys links
  next : ∀ b₀ b₁ test id, b₀.Reachable → b₁.Later b →
    Build.openElseIf site test b₀ = .ok id b₁ →
    ∃ earlier v, b₀.at? site = some (.conditional earlier none) ∧
      Build.condition site.scope test b₀ = .ok v b₀ ∧
      linkKeys earlier ++ [(v, id)] <+: linkKeys links
  last : ∀ b₀ b₁ id, b₀.Reachable → b₁.Later b → Build.openElse site b₀ = .ok id b₁ →
    ∃ earlier, b₀.at? site = some (.conditional earlier none) ∧
      linkKeys links = linkKeys earlier ∧ ∃ c ∈ otherwise, c.frame.id = id

theorem linksAdded (hat : b.at? site = some (.conditional links otherwise)) :
    b.LinksAdded site links otherwise := by
  have kept : ∀ {b₁ : Builder} {links₁ : List (Expr × Scope)} {otherwise₁ : Option Scope},
      b₁.Built (fun _ => True) → b₁.Later b →
      b₁.at? site = some (.conditional links₁ otherwise₁) →
      LinksKept links₁ links otherwise₁ otherwise := by
    intro b₁ links₁ otherwise₁ hb₁ hlater hat₁
    obtain ⟨links', otherwise', hat', hkept⟩ := (hlater.edits hb₁).at?_conditional hb₁ hat₁
    cases hat.symm.trans hat'
    exact hkept
  constructor
  · intro b₀ b₁ test id hb₀ hlater h
    obtain ⟨v, hv, rfl, hb₁, hat₁⟩ := Build.openIf_at? hb₀.built trivial h
    exact ⟨v, hv, (kept hb₁ hlater hat₁).front⟩
  · intro b₀ b₁ test id hb₀ hlater h
    obtain ⟨earlier, v, hat₀, hv, rfl, hb₁, hat₁⟩ := Build.openElseIf_at? hb₀.built trivial h
    have hfront := (kept hb₁ hlater hat₁).front
    rw [linkKeys, List.map_append] at hfront
    exact ⟨earlier, v, hat₀, hv, hfront⟩
  · intro b₀ b₁ id hb₀ hlater h
    obtain ⟨earlier, hat₀, rfl, hb₁, hat₁⟩ := Build.openElse_at? hb₀.built h
    exact ⟨earlier, hat₀, (kept hb₁ hlater hat₁).last _ rfl⟩

/-- The scope does not see the symbol: it is not visible, no name stands for it, and without captures
nothing that is resolved there mentions it. -/
structure Unseen (b : Builder) (id : ScopeId) (x : Symbol) : Prop where
  invisible : b.isVisible id x = false
  unnamed : ∀ name, b.lookup id name ≠ some x
  unresolved : b.options.allowCaptures = false → ∀ f e, Build.resolve id f b = .ok e b →
    x.id ∉ e.vars.map Symbol.id

theorem Numbered.unseen (hb : b.Numbered) {id : ScopeId} {x : Symbol}
    (h : b.isVisible id x = false) : b.Unseen id x where
  invisible := h
  unnamed name hname := absurd (h.symm.trans (Chain.isVisible_of_lookup hname)) Bool.false_ne_true
  unresolved off f e hresolve hmem := by
    obtain ⟨y, hy, hid⟩ := List.mem_map.mp hmem
    obtain ⟨-, hf, -⟩ := Build.resolve_ok.mp hresolve
    obtain ⟨z, hz, hzid, -⟩ := hb.symbol_of_resolveIn off hf hy
    have hvisible := isVisible_iff.mpr ⟨z, hz, hzid.trans hid⟩
    exact absurd (h.symm.trans hvisible) Bool.false_ne_true

/-- A symbol belongs to one frame. -/
theorem Numbered.frame_of_symbol (hb : b.Numbered) {fr fr' : Frame} {x y : Symbol}
    (hfr : fr ∈ b.top.frames) (hfr' : fr' ∈ b.top.frames) (hx : x ∈ fr.symbols)
    (hy : y ∈ fr'.symbols) (hid : x.id = y.id) : fr = fr' := by
  obtain rfl := hb.eq_of_id (List.mem_flatMap.mpr ⟨fr, hfr, hx⟩)
    (List.mem_flatMap.mpr ⟨fr', hfr', hy⟩) hid
  by_contra hne
  have hnodup : (b.top.frames.flatMap Frame.symbols).Nodup := List.Nodup.of_map _ hb.symbols
  obtain ⟨-, hapart⟩ := List.nodup_flatMap.mp hnodup
  have hsymm : Std.Symm (Function.onFun List.Disjoint Frame.symbols) :=
    ⟨fun _ _ h _ hx hy => h hy hx⟩
  exact hapart.forall hfr hfr' hne hx hy

/-- What belongs to a scope directly inside of another one is not seen from there, nor from inside of
a scope beside it. -/
theorem Numbered.unseen_of_child (hb : b.Numbered) (hs : b.top.Within outer s) {c : Scope}
    (hc : c ∈ s.children) {x : Symbol} (hx : x ∈ c.frames.flatMap Frame.symbols) :
    b.Unseen s.frame.id x ∧
      ∀ d ∈ s.children, d.frame.id ≠ c.frame.id → ∀ fr ∈ d.frames, b.Unseen fr.id x := by
  obtain ⟨fr, hfr, hx⟩ := List.mem_flatMap.mp hx
  obtain ⟨inner, u, hu, rfl⟩ := Scope.mem_frames_iff.mp hfr
  have hplace := (hs.inside hc).trans hu
  -- A frame where the symbol is visible is the frame that it belongs to.
  have only : ∀ {o : Chain} {t : Scope}, b.top.Within o t →
      b.isVisible t.frame.id x = true → u.frame ∈ t.frame :: o := by
    intro o t ht hvisible
    rw [isVisible, chain, ht.chain?_eq hb.distinct] at hvisible
    obtain ⟨y, hy, hid⟩ := Chain.isVisible_iff.mp hvisible
    obtain ⟨fr', hfr', hy⟩ := List.mem_flatMap.mp hy
    obtain rfl := hb.frame_of_symbol (ht.mem_frames hfr') hplace.frame_mem hy hx hid
    exact hfr'
  have houter : u.frame ∉ s.frame :: outer := fun hmem =>
    hplace.id_notMem_outer hb.distinct
      (List.mem_map_of_mem (List.mem_append_right inner hmem))
  refine ⟨hb.unseen (Bool.eq_false_iff.mpr fun h => houter (only hs h)), ?_⟩
  intro d hd hne fr' hfr'
  obtain ⟨inner', t, ht, rfl⟩ := Scope.mem_frames_iff.mp hfr'
  refine hb.unseen (Bool.eq_false_iff.mpr fun h => ?_)
  have hmem := only ((hs.inside hd).trans ht) h
  rw [← List.cons_append] at hmem
  rcases List.mem_append.mp hmem with hmem | hmem
  · have hid : u.frame.id ∈ d.ids := List.mem_map_of_mem (ht.mem_frames hmem)
    obtain rfl := (hs.distinct hb.distinct).child_unique hd hc hid hu.id_mem
    exact hne rfl
  · exact houter hmem

/-- All tests are resolved in the scope that the conditional stands in, and all branches stand
directly inside of it. So what belongs to a branch is not seen from this scope, by no test, and not
from inside of another branch. -/
structure LinksApart (b : Builder) (s : Scope) (links : List (Expr × Scope))
    (otherwise : Option Scope) : Prop where
  resolved : ∀ l ∈ links, ∃ f, Build.condition s.frame.id f b = .ok l.1 b
  opened : ∀ c ∈ (Stmt.conditional links otherwise).scopes,
    b.chain c.frame.id = c.frame :: b.chain s.frame.id
  unseen : ∀ c ∈ (Stmt.conditional links otherwise).scopes,
    ∀ x ∈ c.frames.flatMap Frame.symbols, b.Unseen s.frame.id x ∧
      ∀ d ∈ (Stmt.conditional links otherwise).scopes, d.frame.id ≠ c.frame.id →
        ∀ fr ∈ d.frames, b.Unseen fr.id x
  untested : b.options.allowCaptures = false → ∀ c ∈ (Stmt.conditional links otherwise).scopes,
    ∀ x ∈ c.frames.flatMap Frame.symbols, ∀ l ∈ links, x.id ∉ l.1.vars.map Symbol.id

theorem Built.linksApart (hb : b.Built fun _ => True) (hs : b.top.Within outer s)
    (hstmt : .conditional links otherwise ∈ s.stmts) : b.LinksApart s links otherwise := by
  have hnumbered := hb.numbered
  have hchain := hs.chain?_eq hnumbered.distinct
  have hself : b.chain s.frame.id = s.frame :: outer := by
    rw [chain, hchain]
    rfl
  have hcontext : b.context s.frame.id =
      Chain.context (s.frame :: outer) b.options.allowCaptures := by
    rw [← hself]
    rfl
  have hresolved : ∀ l ∈ links, ∃ f, Build.resolve s.frame.id f b = .ok l.1 b ∧
      Build.condition s.frame.id f b = .ok l.1 b := by
    intro l hl
    obtain ⟨⟨f, -, hf⟩, suits⟩ := hb.tests_settled hs hstmt l hl
    have hresolve := Build.resolve_ok.mpr ⟨⟨_, hchain⟩, hcontext ▸ hf, rfl⟩
    refine ⟨f, hresolve, andThen_ok.mpr ⟨_, _, hresolve, andThen_ok.mpr ⟨(), b, ?_, rfl⟩⟩⟩
    exact Build.requireType_ok.mpr ⟨suits, rfl⟩
  have hchild : ∀ c ∈ (Stmt.conditional links otherwise).scopes, c ∈ s.children := fun c hc =>
    Scope.mem_children.mpr ⟨_, hstmt, hc⟩
  have hunseen : ∀ c ∈ (Stmt.conditional links otherwise).scopes,
      ∀ x ∈ c.frames.flatMap Frame.symbols, _ := fun c hc x hx =>
    hnumbered.unseen_of_child hs (hchild c hc) hx
  constructor
  · intro l hl
    obtain ⟨f, -, hf⟩ := hresolved l hl
    exact ⟨f, hf⟩
  · intro c hc
    rw [hself, chain, (hs.inside (hchild c hc)).chain?_eq hnumbered.distinct]
    rfl
  · intro c hc x hx
    obtain ⟨houtside, hbeside⟩ := hunseen c hc x hx
    exact ⟨houtside, fun d hd => hbeside d (hchild d hd)⟩
  · intro off c hc x hx l hl
    obtain ⟨f, hf, -⟩ := hresolved l hl
    exact (hunseen c hc x hx).1.unresolved off f _ hf

/-- What a conditional of the scopes is in the program: the chain of its tests, each with what its
branch is assembled to, and what the alternative is assembled to at its end. -/
theorem Built.conditional_translates {a : Artifact} (hb : b.Built fun _ => True)
    (ha : b.assemble = .ok a) (hs : b.top.Within outer s)
    (hi : s.stmts[i]? = some (.conditional links otherwise)) :
    ∃ branches last, b.Translates a s i (.ofLinks branches (last.getD .nop)) ∧
      List.Forall₂ (fun l n => n.1 = l.1 ∧ b.assembleScope l.2.frame.id = .ok n.2)
        links branches ∧
      Option.Rel (fun c n => b.assembleScope c.frame.id = .ok n) otherwise last := by
  obtain ⟨n, t, htranslates, ht, hbecomes⟩ := exists_translates ha hs hi
  have assembled : ∀ c ∈ (Stmt.conditional links otherwise).scopes, ∀ B : Block,
      c.assemble b.label? Block.collapse = .ok B →
      b.assembleScope c.frame.id = .ok B.collapse := fun c hc B hB =>
    hb.assembleScope_eq (hs.inside (Scope.mem_children.mpr ⟨_, List.mem_of_getElem? hi, hc⟩)) hB
  cases hbecomes with
  | conditional links' otherwise' =>
    simp only [Stmt.map, Stmt.conditional.injEq] at ht
    obtain ⟨hlinks, hotherwise⟩ := ht
    refine ⟨_, _, htranslates, ?_, ?_⟩
    · refine List.forall₂_map_right_iff.mpr ((forall₂_with_mem (forall₂_of_map_eq hlinks)).imp ?_)
      rintro l l' ⟨hl, -, heq⟩
      obtain ⟨htest, hB⟩ := Prod.mk.inj heq
      exact ⟨htest.symm, assembled _ (List.mem_append_left _ (List.mem_map_of_mem hl)) _ hB⟩
    · cases otherwise with
      | none =>
        cases otherwise' with
        | none => exact .none
        | some B => cases hotherwise
      | some c =>
        cases otherwise' with
        | none => cases hotherwise
        | some B =>
          refine .some (assembled c (List.mem_append_right _ (List.mem_singleton_self c)) B ?_)
          exact Option.some.inj hotherwise
  | _ => cases ht

/-- The law of conditionals with any number of tests. The links of a conditional came in one behind
another; its tests are resolved in the scope that it stands in, and no test and no branch sees what
belongs to another branch. In the program it is the chain of these tests, each with the node of its
branch, and with enough fuel and steps the chain comes to what it means, from any state. -/
theorem Reachable.else_if_law (hb : b.Reachable) (hs : b.top.Within outer s)
    (hi : s.stmts[i]? = some (.conditional links otherwise)) :
    b.LinksAdded ⟨s.frame.id, i⟩ links otherwise ∧ b.LinksApart s links otherwise ∧
      ∀ a, b.assemble = .ok a →
        ∃ branches last, b.Translates a s i (.ofLinks branches (last.getD .nop)) ∧
          List.Forall₂ (fun l n => n.1 = l.1 ∧ b.assembleScope l.2.frame.id = .ok n.2)
            links branches ∧
          Option.Rel (fun c n => b.assembleScope c.frame.id = .ok n) otherwise last ∧
          ∀ (m : Machine ω) r, (Node.ofLinks branches (last.getD .nop)).Yields none m r ↔
            Links.Means branches last m r := by
  have hbuilt := hb.built
  have hat := (at?_of_within hbuilt.numbered.distinct hs i).trans hi
  refine ⟨linksAdded hat, hbuilt.linksApart hs (List.mem_of_getElem? hi), fun a ha => ?_⟩
  obtain ⟨branches, last, htranslates, hbranches, hlast⟩ := hbuilt.conditional_translates ha hs hi
  exact ⟨branches, last, htranslates, hbranches, hlast, fun m r => Node.ofLinks_yields_iff⟩

/-- Two tests, of which the second is true; its branch has a local, which the other does not see. -/
theorem else_if_law_for_two_tests :
    let x : Symbol := ⟨0, "x", .bool⟩
    let y : Symbol := ⟨1, "y", .bool⟩
    let z : Symbol := ⟨2, "z", .bool⟩
    ∃ (b : Builder) (a : Artifact) (m m' : Machine Unit), b.Reachable ∧ b.assemble = .ok a ∧
      b.LinksAdded ⟨0, 0⟩ [(.var x, ⟨⟨1, .plain, [], []⟩, []⟩),
        (.var y, ⟨⟨2, .plain, [z], []⟩, [.node (.assign z (.const (.bool true)))]⟩)] none ∧
      b.Unseen 0 z ∧ b.Unseen 1 z ∧ z ∈ (b.chain 2).flatMap Frame.symbols ∧
      m.env.get? 0 = some (.bool false) ∧ m.env.get? 1 = some (.bool true) ∧
      m'.env.get? 2 = some (.bool true) ∧
      Node.Yields (.ofLinks [(.var x, .nop),
        (.var y, .block [z] [.assign z (.const (.bool true))])] .nop) none m
        (.ok (.normal .void) m') := by
  intro x y z
  let links : List (Expr × Scope) := [(.var x, ⟨⟨1, .plain, [], []⟩, []⟩),
    (.var y, ⟨⟨2, .plain, [z], []⟩, [.node (.assign z (.const (.bool true)))]⟩)]
  let b : Builder := ⟨⟨"f", false⟩, [x, y], .internal 0, [],
    ⟨⟨0, .plain, [], [x, y]⟩, [.conditional links none]⟩, 3, 3, 1⟩
  have hcreate : Builder.create ⟨"f", false⟩ [⟨"x", .bool⟩, ⟨"y", .bool⟩] .void =
      .ok ⟨⟨"f", false⟩, [x, y], .internal 0, [], ⟨⟨0, .plain, [], [x, y]⟩, []⟩, 1, 2, 1⟩ := rfl
  have hif := (Reachable.create hcreate).opening 0 (.ifTest ⟨[], .var x⟩)
  have hchain := hif.step (h := .branch ⟨0, 0⟩ 1) (s := .otherwiseIf ⟨[], .var y⟩) rfl
  have hreach : b.Reachable :=
    hchain.statement 2 (.assign "z" .bool ⟨[], .const (.bool true)⟩)
  obtain ⟨a, ha⟩ : ∃ a, b.assemble = .ok a := ⟨_, rfl⟩
  have hstands : b.top.stmts[0]? = some (.conditional links none) := rfl
  obtain ⟨hadded, hapart, hlaw⟩ := hreach.else_if_law (ω := Unit) .here hstands
  obtain ⟨branches, last, -, hbranches, hlast, hmeans⟩ := hlaw a ha
  obtain ⟨⟨e, n⟩, rest, ⟨htest, hyes⟩, hrest, rfl⟩ :
      ∃ l rest, _ ∧ List.Forall₂ _ links.tail rest ∧ branches = l :: rest :=
    List.forall₂_cons_left_iff.mp hbranches
  obtain ⟨⟨e', n'⟩, rest', ⟨htest', hyes'⟩, hrest', rfl⟩ :
      ∃ l rest', _ ∧ List.Forall₂ _ [] rest' ∧ rest = l :: rest' :=
    List.forall₂_cons_left_iff.mp hrest
  cases hrest'
  cases hlast
  obtain rfl : e = .var x := htest
  obtain rfl : e' = .var y := htest'
  obtain rfl : .nop = n := Except.ok.inj hyes
  obtain rfl : .block [z] [.assign z (.const (.bool true))] = n' := Except.ok.inj hyes'
  let m : Machine Unit :=
    ((Machine.new Host.empty () 9).assign x (.bool false)).assign y (.bool true)
  let m' : Machine Unit := (m.declare [z]).assign z (.bool true)
  have hsecond : Node.Yields (.block [z] [.assign z (.const (.bool true))]) none m
      (.ok (.normal .void) m') := Node.yields_iff_comes.mpr ⟨_, .call .done .done⟩
  have hz : z ∈ Frame.symbols ⟨2, .plain, [z], []⟩ := List.mem_singleton_self z
  obtain ⟨hunseen, hothers⟩ := hapart.unseen _ (List.mem_cons_of_mem _ List.mem_cons_self) z
    (List.mem_flatMap.mpr ⟨_, List.mem_singleton_self _, hz⟩)
  refine ⟨b, a, m, m', hreach, ha, hadded, hunseen, ?_, ?_, rfl, rfl, rfl, ?_⟩
  · exact hothers _ List.mem_cons_self (by simp) _ (List.mem_singleton_self _)
  · exact List.mem_flatMap.mpr ⟨_, List.mem_cons_self, hz⟩
  · exact (hmeans m _).mpr (.holds List.singleton_append.symm (.cons rfl .nil) rfl hsecond)

end Builder

end StructuredFlow
