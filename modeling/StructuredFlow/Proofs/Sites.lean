import StructuredFlow.Proofs.Reachable

/-
  Where statements stand. A statement has a site: the number of its scope, and its place among the
  statements there. The statements of a tree have sites of their own (`Scope.Distinct.sites_nodup`),
  and an edit leaves them there: it adds statements behind the others, or changes a construct in its
  place to one of the same kind (`Edit.sites_perm`). So what an operation has put into a scope stays
  at its site in every later builder (`Later.at?_kept`), and an opening that is accepted has put a
  construct there (`Build.opening_at?`).
-/

namespace StructuredFlow

/-- What of a statement is settled when it comes in: a node and the name of a jump are, a construct
may still grow. -/
inductive Stmt.Kind where
  | node (n : Node)
  | goto (name : String)
  | conditional
  | loop
  | iteration
  | switch
  | attempt
  | resource

namespace Stmt

variable {σ τ : Type}

def kind : Stmt σ → Kind
  | node n => .node n
  | goto name => .goto name
  | conditional _ _ => .conditional
  | loop _ _ => .loop
  | iteration _ _ _ _ => .iteration
  | switch _ _ _ => .switch
  | attempt _ _ _ => .attempt
  | resource _ _ _ => .resource

@[simp] theorem kind_map (f : σ → τ) (s : Stmt σ) : (s.map f).kind = s.kind := by
  cases s <;> rfl

end Stmt

namespace Scope

/-- The sites of the statements of a scope itself, each with its kind. -/
def rows (s : Scope) : List (Site × Stmt.Kind) :=
  (s.stmts.map Stmt.kind).zipIdx.map fun p => (⟨s.frame.id, p.2⟩, p.1)

/-- The sites of all statements of a tree. -/
def sites (s : Scope) : List (Site × Stmt.Kind) :=
  s.subscopes.flatMap rows

variable {root s : Scope} {site : Site} {k : Stmt.Kind}

theorem sites_eq (s : Scope) : s.sites = s.rows ++ s.children.flatMap sites := by
  rw [sites, subscopes_eq, List.flatMap_cons, List.flatMap_assoc]
  rfl

theorem gathers_sites : Gathers rows sites where
  total_eq := sites_eq
  own_map s g := by
    rw [rows, List.map_map, show Stmt.kind ∘ Stmt.map g = Stmt.kind from funext (Stmt.kind_map g)]
    rfl

theorem mem_rows :
    (site, k) ∈ s.rows ↔
      s.frame.id = site.scope ∧ ∃ stmt, s.stmts[site.index]? = some stmt ∧ stmt.kind = k := by
  simp only [rows, List.mem_map, Prod.mk.injEq, Prod.exists, List.mem_zipIdx_iff_getElem?,
    List.getElem?_map, Option.map_eq_some_iff]
  constructor
  · rintro ⟨k, i, hstmt, rfl, rfl⟩
    exact ⟨rfl, hstmt⟩
  · rintro ⟨hid, hstmt⟩
    exact ⟨k, site.index, hstmt, by rw [hid], rfl⟩

theorem mem_sites :
    (site, k) ∈ root.sites ↔
      ∃ outer s, Within root outer s ∧ s.frame.id = site.scope ∧
        ∃ stmt, s.stmts[site.index]? = some stmt ∧ stmt.kind = k := by
  rw [sites, List.mem_flatMap]
  constructor
  · rintro ⟨s, hs, hrow⟩
    obtain ⟨outer, place⟩ := mem_subscopes_iff.mp hs
    exact ⟨outer, s, place, mem_rows.mp hrow⟩
  · rintro ⟨outer, s, place, hrow⟩
    exact ⟨s, mem_subscopes_iff.mpr ⟨outer, place⟩, mem_rows.mpr hrow⟩

theorem ids_eq_map_subscopes (s : Scope) : s.ids = s.subscopes.map fun t => t.frame.id := by
  induction s using induct with
  | step s ih =>
    rw [ids_eq, subscopes_eq, List.map_cons, List.map_flatMap, List.flatMap_congr ih]

/-- What the scopes of a tree have, each under its own number, is distinct. -/
theorem Distinct.nodup_flatMap {α : Type} {own : Scope → List α} (h : root.Distinct)
    (key : α → Option ScopeId) (hkey : ∀ s, ∀ x ∈ own s, key x = some s.frame.id)
    (hown : ∀ s, (own s).Nodup) : (root.subscopes.flatMap own).Nodup := by
  rw [Distinct, ids_eq_map_subscopes, List.nodup_iff_pairwise_ne, List.pairwise_map] at h
  refine List.nodup_flatMap.mpr ⟨fun s _ => hown s, h.imp fun {s t} hne x hs ht => ?_⟩
  exact hne (Option.some.inj ((hkey s x hs).symm.trans (hkey t x ht)))

theorem map_fst_rows (s : Scope) :
    s.rows.map Prod.fst = (List.range s.stmts.length).map (Site.mk s.frame.id) := by
  have hindex : (s.stmts.map Stmt.kind).zipIdx.map Prod.snd = List.range s.stmts.length := by
    rw [List.zipIdx_map_snd, List.length_map, List.range_eq_range']
  rw [← hindex, rows, List.map_map, List.map_map]
  rfl

/-- No two statements have one site. -/
theorem Distinct.sites_nodup (h : root.Distinct) : (root.sites.map Prod.fst).Nodup := by
  rw [sites, List.map_flatMap]
  refine h.nodup_flatMap (fun site => some site.scope) (fun s site hsite => ?_) fun s => ?_
  · rw [map_fst_rows, List.mem_map] at hsite
    obtain ⟨i, -, rfl⟩ := hsite
    rfl
  · rw [map_fst_rows]
    exact List.nodup_range.map fun i j hij => (Site.mk.inj hij).2

theorem sites_modifyFrame {g : Frame → Frame} (hg : ∀ fr, (g fr).id = fr.id) (s : Scope) :
    (s.modifyFrame g).sites = s.sites := by
  rw [sites_eq, sites_eq s, rows, rows]
  show ((s.stmts.map Stmt.kind).zipIdx.map fun p => ((⟨(g s.frame).id, p.2⟩ : Site), p.1)) ++ _ = _
  rw [hg]
  rfl

end Scope

namespace Builder

variable {F : Fragment → Prop} {b b' : Builder} {c : Chain} {site : Site} {stmt : Stmt Scope}

/-- The statement at a site. -/
def at? (b : Builder) (site : Site) : Option (Stmt Scope) :=
  (b.top.find? site.scope).bind (·.stmts[site.index]?)

theorem at?_of_within {outer : Chain} {s : Scope} (hdistinct : b.top.Distinct)
    (place : b.top.Within outer s) (i : Nat) : b.at? ⟨s.frame.id, i⟩ = s.stmts[i]? := by
  rw [at?, place.find?_eq hdistinct]
  rfl

theorem exists_of_at? (h : b.at? site = some stmt) :
    ∃ outer s, b.top.Within outer s ∧ s.frame.id = site.scope ∧
      s.stmts[site.index]? = some stmt := by
  obtain ⟨s, hs, hstmt⟩ := Option.bind_eq_some_iff.mp h
  obtain ⟨outer, place, hid⟩ := Scope.exists_of_find? hs
  exact ⟨outer, s, place, hid, hstmt⟩

theorem Numbered.mem_sites (h : b.Numbered) {k : Stmt.Kind} :
    (site, k) ∈ b.top.sites ↔ ∃ stmt, b.at? site = some stmt ∧ stmt.kind = k := by
  rw [Scope.mem_sites]
  constructor
  · rintro ⟨outer, s, place, hid, stmt, hstmt, hkind⟩
    have hat := at?_of_within h.distinct place site.index
    rw [hid] at hat
    exact ⟨stmt, hat.trans hstmt, hkind⟩
  · rintro ⟨stmt, hat, hkind⟩
    obtain ⟨outer, s, place, hid, hstmt⟩ := exists_of_at? hat
    exact ⟨outer, s, place, hid, stmt, hstmt, hkind⟩

/-! ## Edits -/

theorem Grows.kind_eq {old new : Stmt Scope} (h : b.Grows F c old new b') :
    new.kind = old.kind := by
  cases h <;> rfl

theorem rows_setStmt {s : Scope} {index : Nat} {old new : Stmt Scope}
    (standing : s.stmts[index]? = some old) (hkind : new.kind = old.kind) :
    (setStmt index new s).rows = s.rows := by
  have hkinds : (s.stmts.set index new).map Stmt.kind = s.stmts.map Stmt.kind := by
    rw [List.map_set, hkind]
    refine List.ext_getElem? fun i => ?_
    rw [List.getElem?_set]
    split
    next hi =>
      subst hi
      rw [List.getElem?_map, standing]
      exact if_pos (by simpa using (List.getElem?_eq_some_iff.mp standing).1)
    next => rfl
  rw [Scope.rows, Scope.rows, setStmt, hkinds]

theorem rows_addStmts (stmts : List (Stmt Scope)) (s : Scope) :
    ∃ new, (addStmts stmts s).rows = s.rows ++ new := by
  refine ⟨((stmts.map Stmt.kind).zipIdx (0 + (s.stmts.map Stmt.kind).length)).map fun p =>
    (⟨s.frame.id, p.2⟩, p.1), ?_⟩
  rw [Scope.rows, addStmts, List.map_append, List.zipIdx_append, List.map_append]
  rfl

/-- An edit keeps the statements at their sites and may put others at new ones. -/
theorem Edit.sites_perm (h : b.Edit F b') (hb : b.Numbered) :
    ∃ new, b'.top.sites.Perm (b.top.sites ++ new) := by
  cases h with
  | param =>
    refine ⟨[], Scope.gathers_sites.update hb.distinct .here rfl (.of_eq ?_)⟩
    exact (Scope.sites_modifyFrame (fun _ => rfl) _).trans (List.append_nil _).symm
  | declare place =>
    refine ⟨[], Scope.gathers_sites.update hb.distinct place rfl (.of_eq ?_)⟩
    exact (Scope.sites_modifyFrame (fun _ => rfl) _).trans (List.append_nil _).symm
  | @add outer s stmts b₁ place adds =>
    obtain ⟨rows, hrows⟩ := rows_addStmts stmts s
    refine ⟨rows ++ (stmts.flatMap Stmt.scopes).flatMap Scope.sites, ?_⟩
    rw [changing, adds.top_eq]
    refine Scope.gathers_sites.update hb.distinct place rfl ?_
    rw [Scope.sites_eq, Scope.sites_eq s, hrows, addStmts_children, List.flatMap_append,
      List.append_assoc, List.append_assoc]
    exact List.Perm.append_left _ (List.perm_append_comm_assoc _ _ _)
  | @grow outer s index old new b₁ place standing grows =>
    obtain ⟨extra, -, hscopes, hempty⟩ := grows.newScopes
    refine ⟨extra.flatMap Scope.sites, ?_⟩
    rw [changing, grows.top_eq]
    refine Scope.gathers_sites.update hb.distinct place rfl ?_
    rw [Scope.sites_eq, Scope.sites_eq s, rows_setStmt standing grows.kind_eq, List.append_assoc,
      ← List.flatMap_append]
    exact List.Perm.append_left _ ((setStmt_children standing hscopes).flatMap_right _)

/-- What stands at a site stands there after edits, with the same kind. -/
theorem Edits.at?_kept (h : b.Edits F b') (hb : b.Built F) (hat : b.at? site = some stmt) :
    ∃ stmt', b'.at? site = some stmt' ∧ stmt'.kind = stmt.kind := by
  induction h with
  | refl => exact ⟨stmt, hat, rfl⟩
  | edit edits edit ih =>
    obtain ⟨stmt', hat', hkind⟩ := ih
    have hnumbered := (hb.edits edits).numbered
    have hmem := hnumbered.mem_sites.mpr ⟨stmt', hat', hkind⟩
    obtain ⟨new, hperm⟩ := edit.sites_perm hnumbered
    have hmem' := hperm.mem_iff.mpr (List.mem_append_left new hmem)
    exact ((hb.edits edits).edit edit).numbered.mem_sites.mp hmem'

theorem Later.at?_kept (h : b.Later b') (hb : b.Built fun _ => True)
    (hat : b.at? site = some stmt) : ∃ stmt', b'.at? site = some stmt' ∧ stmt'.kind = stmt.kind :=
  (h.edits hb).at?_kept hb hat

/-- What a change of one scope makes of the statement at a site: in the scope it is what the change
puts there, and in another scope only the scopes inside of the statement change. -/
theorem at?_update {outer : Chain} {s : Scope} {f : Scope → Scope} (hb : b.Numbered)
    (hb' : b'.Numbered) (place : b.top.Within outer s) (top : b'.top = b.top.update s.frame.id f)
    (frame : ∀ t : Scope, (f t).frame.id = t.frame.id)
    (hkeep : ∀ d ∈ s.children, d ∈ (f s).children) (hat : b.at? site = some stmt) :
    (site.scope = s.frame.id ∧ s.stmts[site.index]? = some stmt ∧
        b'.at? site = (f s).stmts[site.index]?) ∨
      b'.at? site = some (stmt.map (Scope.update s.frame.id f)) := by
  obtain ⟨o, t, ht, hid, hstmt⟩ := exists_of_at? hat
  have ht' := top ▸ place.update hb.distinct rfl hkeep ht
  have hsite := at?_of_within hb'.distinct ht' site.index
  by_cases hts : t.frame.id = s.frame.id
  · obtain ⟨-, rfl⟩ := ht.unique hb.distinct place hts
    rw [(ht.distinct hb.distinct).update_eq rfl, frame, hid] at hsite
    exact .inl ⟨hid.symm, hstmt, hsite⟩
  · rw [Scope.frame_update_of_ne hts, hid, Scope.stmts_update_of_ne hts, List.getElem?_map,
      hstmt] at hsite
    exact .inr hsite

/-- An edit changes a statement at its site inside of its scopes, which keep their numbers, or it
lets it grow. -/
theorem Edit.at?_becomes (h : b.Edit F b') (hb : b.Built F) (hat : b.at? site = some stmt) :
    ∃ stmt', b'.at? site = some stmt' ∧
      ((∃ g : Scope → Scope, (∀ c, (g c).frame.id = c.frame.id) ∧ stmt' = stmt.map g) ∨
        ∃ c b₁, b.top.chain? site.scope = some c ∧ b.Grows F c stmt stmt' b₁) := by
  have hnumbered := hb.numbered
  have hnumbered' := (hb.edit h).numbered
  have same : (∃ g : Scope → Scope, (∀ c, (g c).frame.id = c.frame.id) ∧ stmt = stmt.map g) ∨
      ∃ c b₁, b.top.chain? site.scope = some c ∧ b.Grows F c stmt stmt b₁ :=
    .inl ⟨id, fun _ => rfl, (stmt.map_id).symm⟩
  cases h with
  | @param name ty =>
    let f := addImplicit (b.newSymbol 0 name ty)
    rcases at?_update (f := f) hnumbered hnumbered' .here rfl (fun _ => rfl) (fun _ hd => hd) hat with
      ⟨-, hstmt, hsite⟩ | hsite
    · exact ⟨stmt, hsite.trans hstmt, same⟩
    · exact ⟨_, hsite, .inl ⟨_, Scope.id_update (f := f) fun _ => rfl, rfl⟩⟩
  | @declare outer s name ty place =>
    let f := addLocal (b.newSymbol 0 name ty)
    rcases at?_update (f := f) hnumbered hnumbered' place rfl (fun _ => rfl) (fun _ hd => hd) hat with
      ⟨-, hstmt, hsite⟩ | hsite
    · exact ⟨stmt, hsite.trans hstmt, same⟩
    · exact ⟨_, hsite, .inl ⟨_, Scope.id_update (f := f) fun _ => rfl, rfl⟩⟩
  | @add outer s stmts b₁ place adds =>
    rcases at?_update (f := addStmts stmts) hnumbered hnumbered' place
      (by rw [changing, adds.top_eq]) (fun _ => rfl) (children_addStmts stmts s) hat with
      ⟨-, hstmt, hsite⟩ | hsite
    · refine ⟨stmt, hsite.trans ?_, same⟩
      rw [addStmts, List.getElem?_append_left (List.getElem?_eq_some_iff.mp hstmt).1, hstmt]
    · exact ⟨_, hsite, .inl ⟨_, Scope.id_update (f := addStmts stmts) fun _ => rfl, rfl⟩⟩
  | @grow outer s index old new b₁ place standing grows =>
    rcases at?_update (f := setStmt index new) hnumbered hnumbered' place
      (by rw [changing, grows.top_eq]) (fun _ => rfl) (grows.keeps_children standing) hat with
      ⟨hid, hstmt, hsite⟩ | hsite
    · by_cases hi : index = site.index
      · subst hi
        obtain rfl := Option.some.inj (standing.symm.trans hstmt)
        refine ⟨new, hsite.trans ?_, .inr ⟨_, b₁, ?_, grows⟩⟩
        · exact List.getElem?_set_self (List.getElem?_eq_some_iff.mp standing).1
        · rw [hid, place.chain?_eq hnumbered.distinct]
      · refine ⟨stmt, hsite.trans ?_, same⟩
        rw [setStmt, List.getElem?_set_ne hi, hstmt]
    · exact ⟨_, hsite, .inl ⟨_, Scope.id_update (f := setStmt index new) fun _ => rfl, rfl⟩⟩

/-! ## Where statements come from -/

/-- What stands in a scope that comes in with a statement is a node, and raises nothing. -/
theorem Adds.nodes_inside {stmts : List (Stmt Scope)} (h : b.Adds F c stmts b') {d : Scope}
    (hd : d ∈ stmts.flatMap Stmt.scopes) (hstmt : stmt ∈ d.stmts) :
    ∃ n, stmt = .node n ∧ ∀ e, n ≠ .throw e := by
  cases h with
  | conditional | whileLoop | attempt | resource =>
    obtain rfl := List.mem_singleton.mp hd
    exact absurd hstmt List.not_mem_nil
  | doWhile | iteration =>
    obtain rfl := List.mem_singleton.mp hd
    exact ⟨_, List.mem_singleton.mp hstmt, nofun⟩
  | _ => exact absurd hd List.not_mem_nil

/-- What stands in the tree after a change of one scope: what stood there, apart from the scopes inside
of it, what stands in the changed scope, or what has come in with a new scope. -/
theorem exists_of_update {top : Scope} {outer o : Chain} {s t : Scope} {f : Scope → Scope}
    (hdistinct : top.Distinct) (place : top.Within outer s) (frame : (f s).frame.id = s.frame.id)
    (ht : (top.update s.frame.id f).Within o t) (hstmt : stmt ∈ t.stmts) :
    (∃ o' u, top.Within o' u ∧ u.frame.id = t.frame.id ∧
        ∃ old ∈ u.stmts, ∃ g : Scope → Scope, stmt = old.map g) ∨
      (t.frame.id = s.frame.id ∧ stmt ∈ (f s).stmts) ∨
      ∃ d ∈ (f s).children, d ∉ s.children ∧ ∃ inner, d.Within inner t := by
  rcases Scope.Within.of_update hdistinct place rfl ht with
    ⟨o', u, hu, -, rfl⟩ | ⟨d, hd, hnew, inner, -, hin⟩
  · by_cases hid : u.frame.id = s.frame.id
    · obtain ⟨-, rfl⟩ := hu.unique hdistinct place hid
      rw [(hu.distinct hdistinct).update_eq rfl] at hstmt ⊢
      exact .inr (.inl ⟨frame, hstmt⟩)
    · rw [Scope.stmts_update_of_ne hid] at hstmt
      obtain ⟨old, hold, rfl⟩ := List.mem_map.mp hstmt
      rw [Scope.frame_update_of_ne hid]
      exact .inl ⟨o', u, hu, rfl, old, hold, _, rfl⟩
  · exact .inr (.inr ⟨d, hd, hnew, inner, hin⟩)

/-- A statement of an edited builder is a node that raises nothing, or its scope had it, apart from
the scopes inside of it, or it has grown or been added there. -/
theorem Edit.stmt_origin (h : b.Edit F b') (hb : b.Numbered) {outer : Chain} {t : Scope}
    (ht : b'.top.Within outer t) (hstmt : stmt ∈ t.stmts) :
    (∃ n, stmt = .node n ∧ ∀ e, n ≠ .throw e) ∨
      ∃ o u, b.top.Within o u ∧ u.frame.id = t.frame.id ∧
      ((∃ old ∈ u.stmts, ∃ g : Scope → Scope, stmt = old.map g) ∨
        (∃ old ∈ u.stmts, ∃ b₁, b.Grows F (u.frame :: o) old stmt b₁) ∨
        ∃ stmts b₁, b.Adds F (u.frame :: o) stmts b₁ ∧ stmt ∈ stmts) := by
  have same : ∀ {s : Scope}, stmt ∈ s.stmts → ∃ old ∈ s.stmts, ∃ g : Scope → Scope,
      stmt = old.map g := fun hs => ⟨stmt, hs, id, stmt.map_id.symm⟩
  have inside : ∀ {d : Scope} {inner : Chain}, d.children = [] → d.Within inner t → t = d := by
    intro d inner hleaf hin
    rcases hin.cases_root with ⟨-, rfl⟩ | ⟨e, he, -⟩
    · rfl
    · exact absurd (hleaf ▸ he) List.not_mem_nil
  cases h with
  | @param name ty =>
    let f := addImplicit (b.newSymbol 0 name ty)
    rcases exists_of_update (f := f) hb.distinct .here rfl ht hstmt with
      ⟨o, u, hu, hid, hold⟩ | ⟨hid, hs⟩ | ⟨d, hd, hnew, -⟩
    · exact .inr ⟨o, u, hu, hid, .inl hold⟩
    · exact .inr ⟨_, _, .here, hid.symm, .inl (same hs)⟩
    · exact absurd hd hnew
  | @declare o s name ty place =>
    let f := addLocal (b.newSymbol 0 name ty)
    rcases exists_of_update (f := f) hb.distinct place rfl ht hstmt with
      ⟨o, u, hu, hid, hold⟩ | ⟨hid, hs⟩ | ⟨d, hd, hnew, -⟩
    · exact .inr ⟨o, u, hu, hid, .inl hold⟩
    · exact .inr ⟨_, _, place, hid.symm, .inl (same hs)⟩
    · exact absurd hd hnew
  | @add o s stmts b₁ place adds =>
    rw [changing, adds.top_eq] at ht
    rcases exists_of_update (f := addStmts stmts) hb.distinct place rfl ht hstmt with
      ⟨o, u, hu, hid, hold⟩ | ⟨hid, hs⟩ | ⟨d, hd, hnew, inner, hin⟩
    · exact .inr ⟨o, u, hu, hid, .inl hold⟩
    · rcases List.mem_append.mp hs with hs | hs
      · exact .inr ⟨_, _, place, hid.symm, .inl (same hs)⟩
      · exact .inr ⟨_, _, place, hid.symm, .inr (.inr ⟨stmts, b₁, adds, hs⟩)⟩
    · rw [addStmts_children] at hd
      have hd := (List.mem_append.mp hd).resolve_left hnew
      obtain rfl := inside (adds.newScopes.leaf hd) hin
      exact .inl (adds.nodes_inside hd hstmt)
  | @grow o s index old new b₁ place standing grows =>
    rw [changing, grows.top_eq] at ht
    obtain ⟨extra, hextra, hperm, hempty⟩ := grows.newScopes
    rcases exists_of_update (f := setStmt index new) hb.distinct place rfl ht hstmt with
      ⟨o, u, hu, hid, hold⟩ | ⟨hid, hs⟩ | ⟨d, hd, hnew, inner, hin⟩
    · exact .inr ⟨o, u, hu, hid, .inl hold⟩
    · rcases List.mem_or_eq_of_mem_set hs with hs | rfl
      · exact .inr ⟨_, _, place, hid.symm, .inl (same hs)⟩
      · exact .inr ⟨_, _, place, hid.symm,
          .inr (.inl ⟨old, List.mem_of_getElem? standing, b₁, grows⟩)⟩
    · have hd := (setStmt_children standing hperm).mem_iff.mp hd
      have hd := (List.mem_append.mp hd).resolve_left hnew
      obtain rfl := inside (hextra.leaf hd) hin
      rw [(hempty t hd).1] at hstmt
      exact absurd hstmt List.not_mem_nil

/-! ## Where statements come to stand -/

/-- Statements that are put at the end of a scope stand there. -/
theorem at?_addStmts {id : ScopeId} {s : Scope} (stmts : List (Stmt Scope)) (hb : b.Numbered)
    (hb' : b'.Numbered) (hs : b.top.find? id = some s)
    (top : b'.top = b.top.update id (addStmts stmts)) (j : Nat) :
    b.at? ⟨id, s.stmts.length + j⟩ = none ∧ b'.at? ⟨id, s.stmts.length + j⟩ = stmts[j]? := by
  obtain ⟨outer, place, rfl⟩ := Scope.exists_of_find? hs
  constructor
  · rw [at?_of_within hb.distinct place, List.getElem?_eq_none (Nat.le_add_right _ _)]
  · have hplace : b'.top.Within outer (addStmts stmts s) := by
      rw [top]
      exact place.update_self hb.distinct rfl (children_addStmts stmts s)
    refine (at?_of_within hb'.distinct hplace _).trans ?_
    rw [addStmts, List.getElem?_append_right (Nat.le_add_right _ _), Nat.add_sub_cancel_left]

/-- A construct that grows stands at its site as it has grown. -/
theorem Grows.at?_setStmt {b₁ : Builder} {old new : Stmt Scope} (h : b.Grows F c old new b₁)
    (hb : b.Numbered) (hb' : b'.Numbered) (hat : b.at? site = some old)
    (top : b'.top = b.top.update site.scope (setStmt site.index new)) : b'.at? site = some new := by
  obtain ⟨outer, s, place, hid, standing⟩ := exists_of_at? hat
  have hplace : b'.top.Within outer (setStmt site.index new s) := by
    rw [top, ← hid]
    exact place.update_self hb.distinct rfl (h.keeps_children standing)
  have hsite := at?_of_within hb'.distinct hplace site.index
  rw [setStmt, hid] at hsite
  exact hsite.trans (List.getElem?_set_self (List.getElem?_eq_some_iff.mp standing).1)

end Builder

/-- The kind of the construct that is opened. -/
def Opening.kind : Opening → Stmt.Kind
  | .ifTest _ => .conditional
  | .whileTest _ | .doWhile _ => .loop
  | .forEach _ _ _ => .iteration
  | .switchOn _ => .switch
  | .guarded => .attempt
  | .using _ _ _ => .resource

/-- Where the construct of a handle stands, if the handle tells. -/
def Handle.site? : Handle → Option Site
  | .branch site _ | .switch site | .case site _ | .caseBody site _ | .guarded site _ => some site
  | .loop _ | .resource _ => none

namespace Build

open Outcome Builder

variable {b b' : Builder} {id : ScopeId}

theorem find?_of_chain? {c : Chain} (h : b.top.chain? id = some c) :
    ∃ s, b.top.find? id = some s :=
  Option.ne_none_iff_exists'.mp (exists_find?_of_chain? h)

/-- A construct is put at the end of a scope, behind statements that belong to it; a site that is told
is the one where it comes to stand. -/
def Puts (b b' : Builder) (id : ScopeId) (k : Stmt.Kind) (told : Option Site) : Prop :=
  ∃ s front stmt, b.top.find? id = some s ∧ stmt.kind = k ∧
    b'.top = b.top.update id (addStmts (front ++ [stmt])) ∧
    ∀ site ∈ told, site = ⟨id, s.stmts.length + front.length⟩

theorem Puts.untold {k : Stmt.Kind} {s : Scope} (front : List (Stmt Scope)) (stmt : Stmt Scope)
    (found : b.top.find? id = some s) (kind : stmt.kind = k)
    (top : b'.top = b.top.update id (addStmts (front ++ [stmt]))) : Puts b b' id k none :=
  ⟨s, front, stmt, found, kind, top, nofun⟩

theorem Puts.at? {k : Stmt.Kind} {told : Option Site} (h : Puts b b' id k told) (hb : b.Numbered)
    (hb' : b'.Numbered) :
    ∃ i stmt, b.at? ⟨id, i⟩ = none ∧ b'.at? ⟨id, i⟩ = some stmt ∧ stmt.kind = k ∧
      ∀ site ∈ told, site = ⟨id, i⟩ := by
  obtain ⟨s, front, stmt, hs, hkind, top, hsite⟩ := h
  obtain ⟨hnone, hsome⟩ := at?_addStmts _ hb hb' hs top front.length
  rw [List.getElem?_append_right (Nat.le_refl _), Nat.sub_self] at hsome
  exact ⟨_, stmt, hnone, hsome, hkind, hsite⟩

theorem resolve_find? {f : Fragment} {e : Expr} (h : resolve id f b = .ok e b) :
    ∃ s, b.top.find? id = some s := by
  obtain ⟨⟨c, hc⟩, -⟩ := resolve_ok.mp h
  exact find?_of_chain? hc

theorem condition_find? {f : Fragment} {e : Expr} (h : condition id f b = .ok e b) :
    ∃ s, b.top.find? id = some s := by
  obtain ⟨c, hc, -⟩ := condition_settles (F := fun _ => True) trivial h
  exact find?_of_chain? hc

theorem openDoWhile_puts {test : Fragment} {r : ScopeId} (h : openDoWhile id test b = .ok r b') :
    Puts b b' id .loop none := by
  obtain ⟨v, hv, h⟩ := (condition_reads id test).andThen_ok h
  obtain ⟨s, hs⟩ := condition_find? hv
  simp only [andThen_ok, makeLoop_ok, pushNode_ok, push_ok, pure_ok] at h
  obtain ⟨_, _, ⟨rfl, rfl⟩, _, _, rfl, _, _, rfl, -, rfl⟩ := h
  refine .untold [.node (.goto b.newEntry none)]
    (.loop (b.newLoop v) (b.newBody.push (.node (.label b.newEntry none)))) hs rfl ?_
  rw [Scope.update_push_node, List.singleton_append, addStmts_pair]
  rfl

theorem openForEach_puts {name : String} {ty : Ty} {collection : Fragment} {r : ScopeId}
    (h : openForEach id name ty collection b = .ok r b') : Puts b b' id .iteration none := by
  obtain ⟨v, hv, h⟩ := (resolve_reads id collection).andThen_ok h
  obtain ⟨s, hs⟩ := resolve_find? hv
  cases iterable : v.type.iteratorType? with
  | none => simp [iterable] at h
  | some iteratorType =>
    simp only [iterable] at h
    cases yields : iteratorType.elementType? with
    | none => simp [yields] at h
    | some element =>
      simp only [yields] at h
      obtain ⟨-, h⟩ := unless_throw_ok h
      obtain ⟨_, -, h⟩ := (requireFree_reads _ _ _).andThen_ok h
      obtain ⟨r, b₁, hmade, h⟩ := andThen_ok.mp h
      obtain ⟨rfl, rfl⟩ := makeIteration_ok hmade
      simp only [andThen_ok, push_ok, pure_ok] at h
      obtain ⟨_, _, rfl, -, rfl⟩ := h
      exact .untold [] (.iteration _ _ _ _) hs rfl rfl

theorem openUsing_puts {name : String} {ty : Ty} {producer : Fragment} {r : ScopeId}
    (h : openUsing id name ty producer b = .ok r b') : Puts b b' id .resource none := by
  obtain ⟨v, hv, h⟩ := (resolve_reads id producer).andThen_ok h
  obtain ⟨s, hs⟩ := resolve_find? hv
  obtain ⟨_, -, h⟩ := (requireType_reads ty v).andThen_ok h
  obtain ⟨_, -, h⟩ := (requireFree_reads _ _ _).andThen_ok h
  obtain ⟨r, b₁, hmade, h⟩ := andThen_ok.mp h
  obtain ⟨rfl, rfl⟩ := makeResource_ok hmade
  simp only [andThen_ok, push_ok, pure_ok] at h
  obtain ⟨_, _, rfl, -, rfl⟩ := h
  exact .untold [] (.resource _ _ _) hs rfl rfl

theorem opening_puts {o : Opening} {handle : Handle} (h : opening id o b = .ok handle b') :
    Puts b b' id o.kind handle.site? := by
  cases o with
  | ifTest test =>
    obtain ⟨r, b₁, h, hp⟩ := andThen_ok.mp h
    obtain ⟨rfl, rfl⟩ := pure_ok.mp hp
    obtain ⟨v, -, h⟩ := (condition_reads id test).andThen_ok h
    simp only [andThen_ok, makeScope_ok, pushConstruct_ok, pure_ok] at h
    obtain ⟨_, _, ⟨rfl, rfl⟩, _, _, ⟨s, hs, rfl, rfl⟩, rfl, rfl⟩ := h
    exact ⟨s, [], .conditional _ _, hs, rfl, rfl, fun site hsite => (Option.some.inj hsite).symm⟩
  | whileTest test =>
    obtain ⟨r, b₁, h, hp⟩ := andThen_ok.mp h
    obtain ⟨rfl, rfl⟩ := pure_ok.mp hp
    obtain ⟨v, hv, h⟩ := (condition_reads id test).andThen_ok h
    obtain ⟨s, hs⟩ := condition_find? hv
    simp only [andThen_ok, makeLoop_ok, push_ok, pure_ok] at h
    obtain ⟨_, _, ⟨rfl, rfl⟩, _, _, rfl, -, rfl⟩ := h
    exact .untold [] (.loop _ _) hs rfl rfl
  | doWhile test =>
    obtain ⟨r, b₁, h, hp⟩ := andThen_ok.mp h
    obtain ⟨rfl, rfl⟩ := pure_ok.mp hp
    exact openDoWhile_puts h
  | forEach name ty collection =>
    obtain ⟨r, b₁, h, hp⟩ := andThen_ok.mp h
    obtain ⟨rfl, rfl⟩ := pure_ok.mp hp
    exact openForEach_puts h
  | switchOn value =>
    obtain ⟨r, b₁, h, hp⟩ := andThen_ok.mp h
    obtain ⟨rfl, rfl⟩ := pure_ok.mp hp
    obtain ⟨v, -, h⟩ := (resolve_reads id value).andThen_ok h
    obtain ⟨s, hs, rfl, rfl⟩ := pushConstruct_ok.mp h
    exact ⟨s, [], .switch _ _ _, hs, rfl, rfl, fun site hsite => (Option.some.inj hsite).symm⟩
  | guarded =>
    obtain ⟨r, b₁, h, hp⟩ := andThen_ok.mp h
    obtain ⟨rfl, rfl⟩ := pure_ok.mp hp
    obtain ⟨c, -, h⟩ := (chain_reads id).andThen_ok h
    simp only [andThen_ok, makeScope_ok, pushConstruct_ok, pure_ok] at h
    obtain ⟨_, _, ⟨rfl, rfl⟩, _, _, ⟨s, hs, rfl, rfl⟩, rfl, rfl⟩ := h
    exact ⟨s, [], .attempt _ _ _, hs, rfl, rfl, fun site hsite => (Option.some.inj hsite).symm⟩
  | «using» name ty producer =>
    obtain ⟨r, b₁, h, hp⟩ := andThen_ok.mp h
    obtain ⟨rfl, rfl⟩ := pure_ok.mp hp
    exact openUsing_puts h

/-- A construct that is opened comes to stand at a new site of the scope. -/
theorem opening_at? {o : Opening} {handle : Handle} (hb : b.Built fun _ => True)
    (h : opening id o b = .ok handle b') :
    ∃ i stmt, b.at? ⟨id, i⟩ = none ∧ b'.at? ⟨id, i⟩ = some stmt ∧ stmt.kind = o.kind ∧
      ∀ site ∈ handle.site?, site = ⟨id, i⟩ :=
  (opening_puts h).at? hb.numbered
    (hb.edits ((opening_keeps id fun _ _ => trivial).done hb h)).numbered

/-- A jump by name comes to stand at a new site of the scope. -/
theorem goto_at? {name : String} (hb : b.Built fun _ => True)
    (h : statement id (.goto name) b = .ok () b') :
    ∃ i, b.at? ⟨id, i⟩ = none ∧ b'.at? ⟨id, i⟩ = some (.goto name) := by
  have hb' := hb.edits ((goto_keeps id name).done hb h)
  obtain ⟨c, hc, hpush⟩ := (chain_reads id).andThen_ok h
  obtain ⟨s, hs⟩ := find?_of_chain? (chain_ok.mp hc).1
  obtain rfl := push_ok.mp hpush
  have top : b.top.update id (·.push (.goto name)) = b.top.update id (addStmts [.goto name]) := rfl
  exact ⟨_, at?_addStmts _ hb.numbered hb'.numbered hs top 0⟩

end Build

end StructuredFlow
