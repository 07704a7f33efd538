import RankedTT.Proofs.TypeSystem

/-!
Terms that go wrong. A faulty term holds, anywhere in it, a destructor that can never be carried
out: the application of something that is no function, a projection from something that is no
record, or from a record that is too short; or it holds a constant or a free name that nobody knows.
A term goes wrong if it reduces to a faulty one. No typed term does.
-/

set_option autoImplicit false
set_option relaxedAutoImplicit false

namespace RankedTT.Nameless

/-- What a term is that no reduction changes at the top. -/
inductive Form where
  | type
  | datum
  | function
  | record
deriving DecidableEq

/-- The form of a term, absent if it is not yet known. The operations of the prelude are never
carried out by reduction: with one operand they are functions, with two they stand for their
result. -/
def form? : Nameless → Option Form
  | univ _ | quant .. | signature _ => some .type
  | var (.free x) => if x ∈ baseTypes then some .type else none
  | const (.int _) | const (.str _) => some .datum
  | const (.host (.binary _)) | app _ _ (const (.host (.binary _))) _ => some .function
  | app _ _ (app _ _ (const (.host (.binary _))) _) _ => some .datum
  | lam _ => some .function
  | record _ => some .record
  | _ => none

/-- The chain of members is complete and has no member at the position. -/
inductive EndsBefore : Nameless → Nat → Prop
  | nil (i : Nat) : EndsBefore nil i
  | cons (head : Nameless) {tail : Nameless} {i : Nat} (h : EndsBefore tail i) :
      EndsBefore (cons head tail) (i + 1)

/-- Somewhere in the term there is something that cannot be carried out. -/
inductive Faulty : Nameless → Prop
  | call (n : Nat) (type operand : Nameless) {operator : Nameless} {k : Form}
      (h : operator.form? = some k) (hk : k ≠ .function) : Faulty (app n type operator operand)
  | select (n : Nat) (type : Nameless) (i : Nat) {operator : Nameless} {k : Form}
      (h : operator.form? = some k) (hk : k ≠ .record) : Faulty (proj n type operator i)
  | range (n : Nat) (type : Nameless) {members : Nameless} {i : Nat} (h : EndsBefore members i) :
      Faulty (proj n type (record members) i)
  | unknown {key : ValueKey} (h : constantType? key = none) : Faulty (const key)
  | unbound {x : String} (h : x ∉ baseTypes) : Faulty (var (.free x))
  | domain (polarity : Polarity) (rank : Nat) {domain : Nameless} (codomain : Nameless)
      (h : Faulty domain) : Faulty (quant polarity rank domain codomain)
  | codomain (polarity : Polarity) (rank : Nat) (domain : Nameless) {codomain : Nameless}
      (h : Faulty codomain) : Faulty (quant polarity rank domain codomain)
  | signature {members : Nameless} (h : Faulty members) : Faulty (signature members)
  | declared (rank : Nat) {type : Nameless} (name : String) (rest : Nameless) (h : Faulty type) :
      Faulty (declare rank type name rest)
  | rest (rank : Nat) (type : Nameless) (name : String) {rest : Nameless} (h : Faulty rest) :
      Faulty (declare rank type name rest)
  | body {body : Nameless} (h : Faulty body) : Faulty (lam body)
  | record {members : Nameless} (h : Faulty members) : Faulty (record members)
  | head {head : Nameless} (tail : Nameless) (h : Faulty head) : Faulty (cons head tail)
  | tail (head : Nameless) {tail : Nameless} (h : Faulty tail) : Faulty (cons head tail)
  | appType (n : Nat) {type : Nameless} (operator operand : Nameless) (h : Faulty type) :
      Faulty (app n type operator operand)
  | operator (n : Nat) (type : Nameless) {operator : Nameless} (operand : Nameless)
      (h : Faulty operator) : Faulty (app n type operator operand)
  | operand (n : Nat) (type operator : Nameless) {operand : Nameless} (h : Faulty operand) :
      Faulty (app n type operator operand)
  | projType (n : Nat) {type : Nameless} (operator : Nameless) (i : Nat) (h : Faulty type) :
      Faulty (proj n type operator i)
  | projected (n : Nat) (type : Nameless) {operator : Nameless} (i : Nat) (h : Faulty operator) :
      Faulty (proj n type operator i)

def GoesWrong (t : Nameless) : Prop := ∃ u, Reduces t u ∧ Faulty u

theorem GoesWrong.of_reduces {s t : Nameless} (h : Reduces s t) (ht : GoesWrong t) :
    GoesWrong s := by
  obtain ⟨u, htu, hu⟩ := ht
  exact ⟨u, h.trans htu, hu⟩

/-- A term goes wrong if one of its parts does. -/
theorem GoesWrong.congr {s : Nameless} (h : GoesWrong s) (f : Nameless → Nameless)
    (hpar : ∀ a b, Par a b → Par (f a) (f b)) (hf : ∀ a, Faulty a → Faulty (f a)) :
    GoesWrong (f s) := by
  obtain ⟨u, hsu, hu⟩ := h
  exact ⟨f u, hsu.congr f hpar, hf u hu⟩

section Parts

variable (polarity : Polarity) (rank n i : Nat) (name : String)
variable {s : Nameless} (t u : Nameless)

theorem GoesWrong.domain (h : GoesWrong s) : GoesWrong (.quant polarity rank s t) :=
  h.congr (fun s ↦ .quant polarity rank s t) (fun _ _ h ↦ .quant _ _ h (.refl t))
    fun _ h ↦ .domain _ _ t h

theorem GoesWrong.codomain (h : GoesWrong s) : GoesWrong (.quant polarity rank t s) :=
  h.congr (fun s ↦ .quant polarity rank t s) (fun _ _ h ↦ .quant _ _ (.refl t) h)
    fun _ h ↦ .codomain _ _ t h

theorem GoesWrong.signature (h : GoesWrong s) : GoesWrong (.signature s) :=
  h.congr _ (fun _ _ h ↦ .signature h) fun _ h ↦ .signature h

theorem GoesWrong.declared (h : GoesWrong s) : GoesWrong (.declare rank s name t) :=
  h.congr (fun s ↦ .declare rank s name t) (fun _ _ h ↦ .declare _ _ h (.refl t))
    fun _ h ↦ .declared _ _ t h

theorem GoesWrong.rest (h : GoesWrong s) : GoesWrong (.declare rank t name s) :=
  h.congr (fun s ↦ .declare rank t name s) (fun _ _ h ↦ .declare _ _ (.refl t) h)
    fun _ h ↦ .rest _ t _ h

theorem GoesWrong.body (h : GoesWrong s) : GoesWrong (.lam s) :=
  h.congr _ (fun _ _ h ↦ .lam h) fun _ h ↦ .body h

theorem GoesWrong.record (h : GoesWrong s) : GoesWrong (.record s) :=
  h.congr _ (fun _ _ h ↦ .record h) fun _ h ↦ .record h

theorem GoesWrong.head (h : GoesWrong s) : GoesWrong (.cons s t) :=
  h.congr (fun s ↦ .cons s t) (fun _ _ h ↦ .cons h (.refl t)) fun _ h ↦ .head t h

theorem GoesWrong.tail (h : GoesWrong s) : GoesWrong (.cons t s) :=
  h.congr (fun s ↦ .cons t s) (fun _ _ h ↦ .cons (.refl t) h) fun _ h ↦ .tail t h

theorem GoesWrong.appType (h : GoesWrong s) : GoesWrong (.app n s t u) :=
  h.congr (fun s ↦ .app n s t u) (fun _ _ h ↦ .app n h (.refl t) (.refl u))
    fun _ h ↦ .appType n t u h

theorem GoesWrong.operator (h : GoesWrong s) : GoesWrong (.app n t s u) :=
  h.congr (fun s ↦ .app n t s u) (fun _ _ h ↦ .app n (.refl t) h (.refl u))
    fun _ h ↦ .operator n t u h

theorem GoesWrong.operand (h : GoesWrong s) : GoesWrong (.app n t u s) :=
  h.congr (fun s ↦ .app n t u s) (fun _ _ h ↦ .app n (.refl t) (.refl u) h)
    fun _ h ↦ .operand n t u h

theorem GoesWrong.projType (h : GoesWrong s) : GoesWrong (.proj n s t i) :=
  h.congr (fun s ↦ .proj n s t i) (fun _ _ h ↦ .proj n i h (.refl t))
    fun _ h ↦ .projType n t i h

theorem GoesWrong.projected (h : GoesWrong s) : GoesWrong (.proj n t s i) :=
  h.congr (fun s ↦ .proj n t s i) (fun _ _ h ↦ .proj n i (.refl t) h)
    fun _ h ↦ .projected n t i h

end Parts

/-! ### Substitution -/

theorem form?_subst {t : Nameless} {k : Form} (h : t.form? = some k) {τ : Ref → Nameless}
    (hτ : KeepsFree τ) : (t.subst τ).form? = some k := by
  unfold form? at h
  split at h
  all_goals first | exact h | skip
  · split at h
    · rename_i x hx
      change (τ (.free x)).form? = _
      rw [hτ x]
      simpa [form?, hx] using h
    · simp at h
  · simp at h

theorem EndsBefore.subst {members : Nameless} {i : Nat} (h : EndsBefore members i)
    (τ : Ref → Nameless) : EndsBefore (members.subst τ) i := by
  induction h with
  | nil i => exact .nil i
  | cons head _ ih => exact .cons _ ih

/-- Replacing bound variables does not mend a fault. -/
theorem Faulty.subst {t : Nameless} (h : Faulty t) {τ : Ref → Nameless} (hτ : KeepsFree τ) :
    Faulty (t.subst τ) := by
  induction h generalizing τ with
  | call n type operand h hk => exact .call n _ _ (form?_subst h hτ) hk
  | select n type i h hk => exact .select n _ i (form?_subst h hτ) hk
  | range n type h => exact .range n _ (h.subst τ)
  | unknown h => exact .unknown h
  | @unbound x h =>
    change Faulty (τ (.free x))
    rw [hτ x]
    exact .unbound h
  | domain polarity rank _ _ ih => exact .domain polarity rank _ (ih hτ)
  | codomain polarity rank _ _ ih => exact .codomain polarity rank _ (ih hτ.lift)
  | signature _ ih => exact .signature (ih hτ)
  | declared rank name _ _ ih => exact .declared rank name _ (ih hτ)
  | rest rank _ name _ ih => exact .rest rank _ name (ih hτ.lift)
  | body _ ih => exact .body (ih hτ.lift)
  | record _ ih => exact .record (ih hτ)
  | head _ _ ih => exact .head _ (ih hτ)
  | tail _ _ ih => exact .tail _ (ih hτ)
  | appType n _ _ _ ih => exact .appType n _ _ (ih hτ)
  | operator n _ _ _ ih => exact .operator n _ _ (ih hτ)
  | operand n _ _ _ ih => exact .operand n _ _ (ih hτ)
  | projType n _ i _ ih => exact .projType n _ i (ih hτ)
  | projected n _ i _ ih => exact .projected n _ i (ih hτ)

/-! ### Typed terms -/

/-- The shape of the types that terms of a form have. -/
def Form.typeShape : Form → Shape
  | .type => .univ
  | .datum => .var
  | .function => .quant
  | .record => .signature

theorem form?_app {n : Nat} {type operator operand : Nameless} {k : Form}
    (h : (app n type operator operand).form? = some k) :
    (∃ op, operator = const (.host (.binary op)) ∧ k = .function) ∨
      ∃ m type' op lhs, operator = app m type' (const (.host (.binary op))) lhs ∧
        k = .datum := by
  unfold form? at h
  split at h
  all_goals simp_all

theorem form?_const {key : ValueKey} {k : Form} (h : (const key).form? = some k) :
    (∃ x, constantType? key = some (var (.free x)) ∧ k = .datum) ∨
      ∃ op, key = .host (.binary op) ∧ k = .function := by
  unfold form? at h
  split at h
  all_goals simp_all [constantType?]

theorem HasType.operation_inv {Γ : Assignment} {n : Nat} {type operand T : Nameless} {op : BinaryOp}
    (h : HasType Γ (.app n type (.const (.host (.binary op))) operand) T) :
    ∃ x, Conv (.quant .universal 0 (.var (.free x)) (.var (.free x))) T := by
  obtain ⟨_, _, _, hoperator, hT⟩ := h.app_inv (by simp [Nameless.shape?])
  obtain ⟨_, hkey, hconv⟩ := hoperator.const_inv
  cases hkey
  rw [operationType_eq] at hconv
  exact ⟨_, (hconv.quant_inj.2.inst (.refl operand)).trans hT⟩

theorem HasType.result_inv {Γ : Assignment} {n m : Nat} {type type' lhs rhs T : Nameless}
    {op : BinaryOp}
    (h : HasType Γ (.app n type (.app m type' (.const (.host (.binary op))) lhs) rhs) T) :
    ∃ x, Conv (.var (.free x)) T := by
  obtain ⟨_, _, _, hoperator, hT⟩ := h.app_inv (by simp [Nameless.shape?])
  obtain ⟨x, hconv⟩ := hoperator.operation_inv
  exact ⟨x, (hconv.quant_inj.2.inst (.refl rhs)).trans hT⟩

/-- A typed term of a known form has a type of the shape that goes with it. -/
theorem HasType.typeShape {Γ : Assignment} {t T : Nameless} (h : HasType Γ t T) {k : Form}
    (hk : t.form? = some k) : ∃ S, Conv S T ∧ S.shape? = some k.typeShape := by
  induction h with
  | univ | quant | signature | lam | record =>
    cases hk
    exact ⟨_, .refl _, rfl⟩
  | base hx =>
    obtain rfl : Form.type = k := by simpa [form?, hx] using hk
    exact ⟨_, .refl _, rfl⟩
  | const h =>
    rcases form?_const hk with ⟨x, hx, rfl⟩ | ⟨op, rfl, rfl⟩
    · rw [hx] at h
      cases h
      exact ⟨_, .refl _, rfl⟩
    · cases h
      rw [operationType_eq]
      exact ⟨_, .refl _, rfl⟩
  | app n htype hoperator hoperand _ _ _ =>
    have h := HasType.app n htype hoperator hoperand
    rcases form?_app hk with ⟨op, rfl, rfl⟩ | ⟨m, type', op, lhs, rfl, rfl⟩
    · obtain ⟨x, hx⟩ := h.operation_inv
      exact ⟨_, hx, rfl⟩
    · obtain ⟨x, hx⟩ := h.result_inv
      exact ⟨_, hx, rfl⟩
  | letIn n _ _ _ _ _ _ =>
    rcases form?_app hk with ⟨op, hop, -⟩ | ⟨m, type', op, lhs, hop, -⟩
    · cases hop
    · cases hop
  | conv _ hconv ih =>
    obtain ⟨S, hS, hshape⟩ := ih hk
    exact ⟨S, hS.trans hconv, hshape⟩
  | noDeclarations | declare | noMembers | cons | proj | var => simp [form?] at hk

theorem HasType.form_eq_function {Γ : Assignment} {t domain codomain : Nameless} {rank : Nat}
    (h : HasType Γ t (.quant .universal rank domain codomain)) {k : Form} (hk : t.form? = some k) :
    k = .function := by
  obtain ⟨S, hconv, hS⟩ := h.typeShape hk
  have hshape := hconv.shape_eq hS rfl
  cases k <;> simp_all [Form.typeShape]

theorem HasType.form_eq_record {Γ : Assignment} {t types : Nameless}
    (h : HasType Γ t (.signature types)) {k : Form} (hk : t.form? = some k) : k = .record := by
  obtain ⟨S, hconv, hS⟩ := h.typeShape hk
  have hshape := hconv.shape_eq hS rfl
  cases k <;> simp_all [Form.typeShape]

theorem HasType.nil_inv {Γ : Assignment} {T : Nameless} (h : HasType Γ .nil T) :
    Conv .nil T ∨ ∃ n, Conv (.univ n) T := by
  generalize ht : Nameless.nil = t at h
  induction h with
  | noDeclarations => exact .inr ⟨0, .refl _⟩
  | noMembers => exact .inl (.refl _)
  | conv _ hconv ih =>
    rcases ih ht with hT | ⟨n, hT⟩
    · exact .inl (hT.trans hconv)
    · exact .inr ⟨n, hT.trans hconv⟩
  | _ => cases ht

/-- A record has a member wherever its type declares one. -/
theorem HasType.not_endsBefore {Γ : Assignment} {select : Nat → Nameless}
    {members types T : Nameless} {i : Nat} (hdeclares : Declares select types i T)
    (h : HasType Γ members types)
    (hselect : ∀ j a, members.nth j = some a → Conv (select j) a) : ¬ EndsBefore members i := by
  intro hends
  induction hdeclares generalizing members with
  | here htypes =>
    cases hends
    rcases h.nil_inv with hT | ⟨n, hT⟩
    · cases (hT.trans htypes).shape_eq rfl rfl
    · cases (hT.trans htypes).shape_eq rfl rfl
  | there htypes _ ih =>
    cases hends with
    | nil =>
      rcases h.nil_inv with hT | ⟨n, hT⟩
      · cases (hT.trans htypes).shape_eq rfl rfl
      · cases (hT.trans htypes).shape_eq rfl rfl
    | cons head hends =>
      obtain ⟨_, _, _, _, hT, -, htail⟩ := h.cons_inv
      have hrest := (hT.trans htypes).declare_inj.2.inst (hselect 0 head rfl).symm
      exact ih (htail.conv hrest) (fun j a ha ↦ hselect (j + 1) a ha) hends

theorem HasType.not_faulty {Γ : Assignment} {t T : Nameless} (h : HasType Γ t T) : ¬ Faulty t := by
  induction h with
  | univ | noDeclarations | noMembers | var =>
    intro hfault
    cases hfault
  | base hx =>
    intro hfault
    cases hfault with
    | unbound h => exact h hx
  | const h =>
    intro hfault
    cases hfault with
    | unknown hkey => simp [hkey] at h
  | quant _ _ _ ihdomain ihcodomain =>
    intro hfault
    cases hfault with
    | domain _ _ _ h => exact ihdomain h
    | codomain _ _ _ h => exact ihcodomain h
  | signature _ ih =>
    intro hfault
    cases hfault with
    | signature h => exact ih h
  | declare _ _ _ ihtype ihrest =>
    intro hfault
    cases hfault with
    | declared _ _ _ h => exact ihtype h
    | rest _ _ _ h => exact ihrest h
  | lam _ _ ih =>
    intro hfault
    cases hfault with
    | body h => exact ih h
  | record _ ih =>
    intro hfault
    cases hfault with
    | record h => exact ih h
  | cons _ _ _ _ ihhead ihtail =>
    intro hfault
    cases hfault with
    | head _ h => exact ihhead h
    | tail _ h => exact ihtail h
  | app _ _ hoperator _ ihtype ihoperator ihoperand =>
    intro hfault
    cases hfault with
    | call _ _ _ hform hk => exact hk (hoperator.form_eq_function hform)
    | appType _ _ _ h => exact ihtype h
    | operator _ _ _ h => exact ihoperator h
    | operand _ _ _ h => exact ihoperand h
  | letIn _ _ _ _ ihtype ihoperand ihbody =>
    intro hfault
    cases hfault with
    | call _ _ _ hform hk =>
      cases hform
      exact hk rfl
    | appType _ _ _ h => exact ihtype h
    | operator _ _ _ h =>
      cases h with
      | body h => exact ihbody (h.subst (keepsFree_instantiation _))
    | operand _ _ _ h => exact ihoperand h
  | proj _ _ hoperator hmember ihtype ihoperator =>
    intro hfault
    cases hfault with
    | select _ _ _ hform hk => exact hk (hoperator.form_eq_record hform)
    | range _ _ hends =>
      obtain ⟨_, hconv, hrecord⟩ := hoperator.record_inv
      refine HasType.not_endsBefore hmember (hrecord.conv hconv.signature_inj) ?_ hends
      intro j a ha
      exact .select _ _ ha
    | projType _ _ _ h => exact ihtype h
    | projected _ _ _ h => exact ihoperator h
  | conv _ _ ih => exact ih

/-- Typed terms do not go wrong. -/
theorem HasType.not_goesWrong {Γ : Assignment} {t T : Nameless} (h : HasType Γ t T) :
    ¬ GoesWrong t := by
  rintro ⟨u, hu, hfault⟩
  exact (h.reduces hu).not_faulty hfault

end RankedTT.Nameless
