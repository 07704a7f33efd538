import RankedTT.Proofs.OperatorScope

/-!
The typing rules for a program over the prelude, and for the same program with operations in place
of their names. As long as no type that is found has captured the symbol for multiplication, the two
are elaborated in lockstep.
-/

set_option autoImplicit false
set_option relaxedAutoImplicit false

namespace RankedTT

open Prelude (operator?)
open RankedTT.Core (Clean Found Elaborates)
open Run

/-! ### Types that were found -/

/-- The type that an event reports to have been found, whether it was inferred or is about to be
compared with the one that is expected. -/
def Event.found? : Event → Option Core
  | .inferred _ _ type => some type
  | .comparing _ found _ => some found.term
  | _ => none

/-- The type that was found, if any, does not mention the anonymous name. -/
def Event.Clear (event : Event) : Prop :=
  ∀ type ∈ event.found?, (.reference, anonymous) ∉ type.names

instance : DecidablePred Event.Clear := fun event ↦
  inferInstanceAs (Decidable (∀ type ∈ event.found?, (.reference, anonymous) ∉ type.names))

/-- How the two runs belong together: which hosts do, and whether the program uses the symbol that
is the name of anonymous binders. If it does, the types that are found have to be clear of it. -/
structure Aliasing (σ σ' : Type) where
  hosts : σ → σ' → Prop
  symbol : Bool

def Aliasing.pace {σ σ' : Type} (M : Aliasing σ σ') : Pace (Progress σ) (Progress σ') where
  states s s' := M.hosts s.host s'.host
  clear event := M.symbol = true → event.Clear

/-! ### Steps -/

section Steps

variable {σ σ' κ κ' α α' β β' : Type} {M : Aliasing σ σ'} {R : α → α' → Prop} {live : Bool}
  {fuel : Nat} {ctx ctx' : Ctx}

namespace Check

theorem reject_lockstep {cause cause' : TypeError} :
    Lockstep M.pace R (reject cause : Check σ κ α) (reject cause' : Check σ' κ' α') :=
  .fail

theorem reject_bind_lockstep {cause cause' : TypeError} {f : β → Check σ κ α}
    {g : β' → Check σ' κ' α'} :
    Lockstep M.pace R (reject cause >>= f : Check σ κ α) (reject cause' >>= g : Check σ' κ' α') :=
  fun _ _ hstates _ ↦ ⟨hstates, .error _ _⟩

/-- After an event was recorded, what is known of events is known of it. -/
theorem record_bind_lockstep {event event' : Event} {a : Check σ κ α} {b : Check σ' κ' α'}
    (hgrows : a.Grows) (h : (M.symbol = true → event.Clear) → Lockstep M.pace R a b) :
    Lockstep M.pace R (record event >>= fun _ ↦ a) (record event' >>= fun _ ↦ b) := by
  intro s s' hstates hclear
  refine h ?_ (s.record event) (s'.record event') hstates hclear
  exact hclear event ((hgrows.grows (s.record event)).subset (List.mem_cons_self ..))

theorem stamp_lockstep {under free : Set String} {t u : Core} (h : t.Resolves under free u) :
    Lockstep M.pace (Core.Resolves under free) (stamp t : Check σ κ Core)
      (stamp u : Check σ' κ' Core) :=
  .modifyGet fun s s' hs ↦ ⟨hs, h.assignStamps s.journal.nextStamp s'.journal.nextStamp⟩

theorem lambda_lockstep {param : String} (hparam : operator? param = none) {body body' : Core}
    (h : Elaborates live body body') :
    Lockstep M.pace (Elaborates live) (lambda param body : Check σ κ Core)
      (lambda param body' : Check σ' κ' Core) :=
  stamp_lockstep (.lam none none hparam h)

theorem ofNormalizer_lockstep {o : Outcome BadProjection α} {o' : Outcome BadProjection α'}
    (h : Agree R o o') :
    Lockstep M.pace R (ofNormalizer o : Check σ κ α) (ofNormalizer o' : Check σ' κ' α') :=
  (Lockstep.ofOutcome h).mapError _ _

/-- Normal forms keep what anonymous binders have captured, and nothing else. -/
theorem normalize_lockstep {under free names : Set String} (hctx : ctx.ResolvesTo live ctx')
    (hunder : under ⊆ free) (hfree : free ⊆ scope live)
    (hcaptured : anonymous ∈ under → anonymous ∈ names) {t u : Core}
    (h : t.Resolves under free u) :
    Lockstep M.pace (Core.Resolves names names) (normalize fuel ctx t : Check σ κ Core)
      (normalize fuel ctx' u : Check σ' κ' Core) := by
  have henv := hctx.values.mono (Set.empty_subset names) hfree
  exact (ofNormalizer_lockstep (h.normalForm hunder hcaptured henv)).bind fun _ _ hn ↦
    stamp_lockstep hn

/-- Elaborated terms have normal forms without names of operations. -/
theorem normalize_elaborated (hctx : ctx.ResolvesTo live ctx') {t u : Core}
    (h : Elaborates live t u) :
    Lockstep M.pace Clean (normalize fuel ctx t : Check σ κ Core)
      (normalize fuel ctx' u : Check σ' κ' Core) :=
  normalize_lockstep hctx (scope_false_subset live) subset_rfl
    (fun h ↦ absurd h anonymous_notMem_scope) h

/-- What was substituted below an anonymous binder may be captured. -/
theorem normalize_substituted (hctx : ctx.ResolvesTo live ctx') {t u : Core}
    (h : t.Resolves (scope live) (scope live) u) :
    Lockstep M.pace (Found live) (normalize fuel ctx t : Check σ κ Core)
      (normalize fuel ctx' u : Check σ' κ' Core) :=
  normalize_lockstep hctx subset_rfl subset_rfl
    (fun h ↦ show anonymous ∈ captured live from ⟨rfl, h rfl⟩) h

theorem normalized_lockstep (hctx : ctx.ResolvesTo live ctx') {j k : Classified Core}
    (h : j.Related Clean (Elaborates live) k) :
    Lockstep M.pace (Classified.Related Clean Clean)
      (normalized fuel ctx j : Check σ κ (Classified Core))
      (normalized fuel ctx' k : Check σ' κ' (Classified Core)) := by
  refine (normalize_elaborated hctx h.type.elaborates).bind fun _ _ htype ↦ ?_
  refine (normalize_elaborated hctx h.term).bind fun _ _ hterm ↦ ?_
  exact .pure ⟨h.rank, htype, hterm⟩

theorem ensureFresh_lockstep (hctx : ctx.ResolvesTo live ctx') (name : String) :
    Lockstep M.pace (fun _ _ ↦ True) (ensureFresh ctx name : Check σ κ Unit)
      (ensureFresh ctx' name : Check σ' κ' Unit) := by
  unfold ensureFresh Ctx.isFresh
  rw [hctx.maps_eq]
  split
  · exact .pure trivial
  · exact reject_lockstep

/-- A type that is compared was found, so nothing in it is captured. -/
theorem convert_lockstep (hlive : live = true → M.symbol = true) (hctx : ctx.ResolvesTo live ctx')
    {found : Classified α} {found' : Classified α'} (hrank : found.rank = found'.rank)
    (hfound : Found live found.type found'.type) {expected expected' : Classified Core}
    (hexpected : expected.Related Clean Clean expected') :
    Lockstep M.pace (fun _ _ ↦ True)
      (convert fuel ctx.values found.typeOf expected : Check σ κ Unit)
      (convert fuel ctx'.values found'.typeOf expected' : Check σ' κ' Unit) := by
  refine record_bind_lockstep
    (.andThen fun cause? ↦ by cases cause? <;> infer_instance) fun hclear ↦ ?_
  have htype : Clean found.type found'.type :=
    hfound.clean fun h ↦ hclear (hlive h) found.type rfl
  have htypeOf : found.typeOf.Related Clean Clean found'.typeOf :=
    Classified.related_typeOf (R := fun _ _ ↦ True) ⟨hrank, htype, trivial⟩
  refine (ofNormalizer_lockstep (Classified.mismatch?_agree hctx.values htypeOf
    hexpected)).bind_of_grows (fun cause? ↦ by cases cause? <;> infer_instance)
      fun cause? cause?' hcause ↦ ?_
  cases hcause with
  | none => exact .pure trivial
  | some => exact reject_lockstep

end Check

end Steps

/-! ### Rules -/

/-- Two rules in lockstep. The terms that they return have names of operations where they are in
scope only, and the types that they infer are related by `found`. -/
structure Judged.Resolves {σ σ' κ κ' : Type} (M : Aliasing σ σ') (live : Bool)
    (found : Core → Core → Prop) (rule : Judged σ κ) (rule' : Judged σ' κ') : Prop where
  infer : ∀ {ctx ctx' : Ctx}, ctx.ResolvesTo live ctx' →
    Lockstep M.pace (Classified.Related found (Elaborates live)) (rule.infer ctx)
      (rule'.infer ctx')
  check : ∀ {ctx ctx' : Ctx}, ctx.ResolvesTo live ctx' → ∀ {expected expected' : Classified Core},
    expected.Related Clean Clean expected' →
      Lockstep M.pace (Elaborates live) (rule.check ctx expected) (rule'.check ctx' expected')

section Shared

variable {σ σ' κ κ' : Type} {M : Aliasing σ σ'} {live : Bool} {fuel : Nat} {ctx ctx' : Ctx}
  {rule : Judged σ κ} {rule' : Judged σ' κ'} {found : Core → Core → Prop}

/-- A type that is reported was found, so nothing in it is captured. -/
theorem Judged.Resolves.logged (hlive : live = true → M.symbol = true) [rule.Grows]
    (h : rule.Resolves M live (Found live) rule') :
    rule.logged.Resolves M live Clean rule'.logged where
  infer hctx := by
    refine (h.infer hctx).bind fun j _ hj ↦ ?_
    refine Check.record_bind_lockstep inferInstance fun hclear ↦ ?_
    exact .pure ⟨hj.rank, hj.type.clean fun h ↦ hclear (hlive h) j.type rfl, hj.term⟩
  check hctx _ _ hexpected :=
    Check.record_bind_lockstep inferInstance fun _ ↦ h.check hctx hexpected

theorem Classified.related_inhabitant? {α α' : Type} {R : α → α' → Prop} {j k : Classified Core}
    (h : j.Related Clean Clean k) {x : α} {y : α'} (hxy : R x y) :
    Option.Rel (Related Clean R) (j.inhabitant? x) (k.inhabitant? y) := by
  obtain ⟨rank, type, term⟩ := j
  obtain ⟨rank', type', term'⟩ := k
  obtain ⟨-, htype, hterm⟩ := h
  change Clean type type' at htype
  cases htype with
  | univ rank => exact .some ⟨rfl, hterm, hxy⟩
  | _ => exact .none

theorem Judged.Resolves.ensure [rule.Grows] (h : rule.Resolves M live Clean rule')
    (hctx : ctx.ResolvesTo live ctx') {expected expected' : Option (Classified Core)}
    (hexpected : Option.Rel (Classified.Related Clean Clean) expected expected') :
    Lockstep M.pace (Classified.Related Clean (Elaborates live)) (rule.ensure ctx expected)
      (rule'.ensure ctx' expected') := by
  cases hexpected with
  | none => exact h.infer hctx
  | some hexpected =>
    refine (h.check hctx hexpected).bind fun t t' ht ↦ ?_
    exact .ofOption (Classified.related_inhabitant? hexpected ht)

theorem Judged.Resolves.declare [rule.Grows] (h : rule.Resolves M live Clean rule')
    (hctx : ctx.ResolvesTo live ctx') (name : String) :
    Lockstep M.pace (Classified.Declares name) (rule.declare fuel ctx name)
      (rule'.declare fuel ctx' name) := by
  refine (h.infer hctx).bind fun j k hj ↦ ?_
  refine (Check.normalized_lockstep hctx hj).bind fun j k hj ↦ ?_
  exact .ofOption (Classified.related_inhabitant? hj ⟨rfl, rfl⟩)

theorem Classified.related_isType (rank : Nat) {t u : Core} (h : Clean t u) :
    (⟨rank + 1, .univ rank, t⟩ : Classified Core).Related Clean Clean ⟨rank + 1, .univ rank, u⟩ :=
  ⟨rfl, .univ rank, h⟩

variable {infer : Ctx → Check σ κ (Classified Core)} {infer' : Ctx → Check σ' κ' (Classified Core)}
  {expected expected' : Classified Core} (hlive : live = true → M.symbol = true)

include hlive

/-- The end of every rule that checks by inference. -/
theorem convert_found (hctx : ctx.ResolvesTo live ctx') {j k : Classified Core}
    (hj : j.Related (Found live) (Elaborates live) k)
    (hexpected : expected.Related Clean Clean expected') :
    Lockstep M.pace (Elaborates live) (do
        Check.convert fuel ctx.values j.typeOf expected
        return j.term : Check σ κ Core)
      (do
        Check.convert fuel ctx'.values k.typeOf expected'
        return k.term : Check σ' κ' Core) :=
  (Check.convert_lockstep hlive hctx hj.rank hj.type hexpected).bind fun _ _ _ ↦ .pure hj.term

theorem checkByInference_lockstep (hctx : ctx.ResolvesTo live ctx')
    (h : Lockstep M.pace (Classified.Related (Found live) (Elaborates live)) (infer ctx)
      (infer' ctx')) (hexpected : expected.Related Clean Clean expected') :
    Lockstep M.pace (Elaborates live) (checkByInference fuel infer ctx expected)
      (checkByInference fuel infer' ctx' expected') :=
  h.bind fun _ _ hj ↦ convert_found hlive hctx hj hexpected

theorem checkTypeByInference_lockstep {self self' : Term} (hctx : ctx.ResolvesTo live ctx')
    (h : Lockstep M.pace (Classified.Related (Found live) (Elaborates live)) (infer ctx)
      (infer' ctx')) (hexpected : expected.Related Clean Clean expected') :
    Lockstep M.pace (Elaborates live) (checkTypeByInference fuel self infer ctx expected)
      (checkTypeByInference fuel self' infer' ctx' expected') := by
  refine h.bind_of_grows (fun _ ↦ .andThen fun _ ↦ .andThen fun _ ↦ by
    (repeat' split) <;> infer_instance) fun j k hj ↦ ?_
  refine (Check.normalize_elaborated hctx hexpected.term.elaborates).bind_of_grows
    (fun _ ↦ .andThen fun _ ↦ by (repeat' split) <;> infer_instance) fun type type' htype ↦ ?_
  refine (Check.normalize_substituted hctx hj.type.resolves).bind_of_grows
    (fun _ ↦ by (repeat' split) <;> infer_instance) fun kind kind' hkind ↦ ?_
  have hrest := @convert_found σ σ' κ κ' M live fuel ctx ctx' _ _ hlive hctx _ _ hj hexpected
  dsimp only
  cases htype with
  | univ m =>
    cases hkind with
    | univ n =>
      dsimp only
      split
      · exact Check.reject_bind_lockstep
      · exact hrest
    | _ => exact hrest
  | _ => exact hrest

/-- A rule for terms whose type can always be inferred. -/
theorem inferredRule_resolves {self self' : Term}
    (h : ∀ {ctx ctx' : Ctx}, ctx.ResolvesTo live ctx' →
      Lockstep M.pace (Classified.Related (Found live) (Elaborates live)) (infer ctx)
        (infer' ctx')) :
    (inferredRule fuel self infer).Resolves M live (Found live)
      (inferredRule fuel self' infer') where
  infer := h
  check hctx _ _ hexpected := checkByInference_lockstep hlive hctx (h hctx) hexpected

end Shared

section Functions

variable {σ σ' κ κ' : Type} {M : Aliasing σ σ'} {live : Bool} {fuel : Nat} {ctx ctx' : Ctx}
  {self self' : Term} {definition body operator argument function type : Judged σ κ}
  {definition' body' operator' argument' function' type' : Judged σ' κ'}

theorem elaborateLet_lockstep [definition.Grows] [body.Grows]
    (hdefinition : definition.Resolves M live Clean definition')
    (hbody : body.Resolves M live Clean body') {name : String} (hname : operator? name = none)
    (hctx : ctx.ResolvesTo live ctx') {expected expected' : Option (Classified Core)}
    (hexpected : Option.Rel (Classified.Related Clean Clean) expected expected') :
    Lockstep M.pace (Classified.Related Clean (Elaborates live))
      (elaborateLet fuel name definition body expected ctx)
      (elaborateLet fuel name definition' body' expected' ctx') := by
  refine (Check.ensureFresh_lockstep hctx name).bind fun _ _ _ ↦ ?_
  refine (hdefinition.infer hctx).bind fun defined defined' hdefined ↦ ?_
  refine (Check.normalized_lockstep hctx hdefined).bind fun value value' hvalue ↦ ?_
  have hinner := hctx.bind hname hvalue
  refine (hbody.ensure hinner hexpected).bind fun j k hj ↦ ?_
  refine (Check.normalize_elaborated hinner hj.type.elaborates).bind fun result result' hresult ↦ ?_
  refine (Check.lambda_lockstep hname hj.term).bind fun lambda lambda' hlambda ↦ ?_
  refine .pure ⟨hj.rank, hresult, ?_⟩
  dsimp only [Core.apply, Core.quantify, Classified.withTerm]
  rw [← hj.rank, ← hdefined.rank]
  exact .app _ (hdefined.type.quantify hresult).resolves hlambda hdefined.term

/-- The rules that infer a type in normal form. -/
theorem Classified.Related.found {j k : Classified Core}
    (h : j.Related Clean (Elaborates live) k) : j.Related (Found live) (Elaborates live) k :=
  ⟨h.rank, h.type.found, h.term⟩

theorem letRule_resolves [definition.Grows] [body.Grows]
    (hdefinition : definition.Resolves M live Clean definition')
    (hbody : body.Resolves M live Clean body') {name : String} (hname : operator? name = none) :
    (letRule fuel self name definition body).Resolves M live (Found live)
      (letRule fuel self' name definition' body') where
  infer hctx :=
    (elaborateLet_lockstep hdefinition hbody hname hctx .none).mono fun _ _ hj ↦ hj.found
  check hctx _ _ hexpected :=
    (elaborateLet_lockstep hdefinition hbody hname hctx (.some hexpected)).bind fun _ _ h ↦
      .pure h.term

/-- The body of a lambda, once the parameter is declared. -/
theorem lambdaBody_lockstep [body.Grows] (hbody : body.Resolves M live Clean body')
    (hctx : ctx.ResolvesTo live ctx') (rank : Nat) {param name : String}
    (hparam : operator? param = none) (hname : name = anonymous ∨ operator? name = none)
    {domain domain' codomain codomain' : Core} (hdomain : Clean domain domain')
    (hcodomain : Clean codomain codomain') {expected expected' : Classified Core}
    (hexpected : expected.Related Clean Clean expected') :
    Lockstep M.pace (Elaborates live) (do
        let codomain ←
          if name == anonymous || name == param then pure codomain
          else Check.subst (.single name (.var param)) codomain
        let body ← body.check (ctx.bindDeclared ⟨rank, domain, param⟩) (expected.withTerm codomain)
        Check.lambda param body : Check σ κ Core)
      (do
        let codomain ←
          if name == anonymous || name == param then pure codomain'
          else Check.subst (.single name (.var param)) codomain'
        let body ← body'.check (ctx'.bindDeclared ⟨rank, domain', param⟩)
          (expected'.withTerm codomain)
        Check.lambda param body : Check σ' κ' Core) := by
  have hinner := hctx.bindDeclared hparam (d := ⟨rank, domain, param⟩) (e := ⟨rank, domain', param⟩)
    ⟨rfl, hdomain, rfl, rfl⟩
  have hrest {range range' : Core} (hrange : Clean range range') : Lockstep M.pace (Elaborates live)
      (do
        let body ← body.check (ctx.bindDeclared ⟨rank, domain, param⟩) (expected.withTerm range)
        Check.lambda param body : Check σ κ Core)
      (do
        let body ← body'.check (ctx'.bindDeclared ⟨rank, domain', param⟩)
          (expected'.withTerm range')
        Check.lambda param body : Check σ' κ' Core) := by
    have hcheck : (expected.withTerm range).Related Clean Clean (expected'.withTerm range') :=
      ⟨hexpected.rank, hexpected.type, hrange⟩
    exact (hbody.check hinner hcheck).bind fun _ _ ht ↦ Check.lambda_lockstep hparam ht
  split
  · exact (Lockstep.pure hcodomain).bind fun _ _ hrange ↦ hrest hrange
  · rename_i hcond
    have hplain : operator? name = none := by
      rcases hname with rfl | hname
      · simp at hcond
      · exact hname
    have hsubst := hcodomain.subst subset_rfl subset_rfl (.single hplain (.var hparam))
    exact (Check.stamp_lockstep hsubst).bind fun _ _ hrange ↦ hrest hrange

/-- A lambda with or without an annotation. -/
theorem checkLambda_lockstep (hlive : live = true → M.symbol = true) [body.Grows]
    (hbody : body.Resolves M live Clean body') {type? : Option (Judged σ κ)}
    {type?' : Option (Judged σ' κ')}
    (htype : Option.Rel (Judged.Resolves M live Clean) type? type?')
    (hgrows : ∀ type ∈ type?, type.Grows) {param : String} (hparam : operator? param = none)
    (hctx : ctx.ResolvesTo live ctx') {expected expected' : Classified Core}
    (hexpected : expected.Related Clean Clean expected') :
    Lockstep M.pace (Elaborates live) (checkLambda fuel self param type? body ctx expected)
      (checkLambda fuel self' param type?' body' ctx' expected') := by
  refine (Check.normalize_elaborated hctx hexpected.term.elaborates).bind_of_grows
    (fun kind ↦ ?_) fun kind kind' hkind ↦ ?_
  · split
    · refine .andThen fun _ ↦ ?_
      cases htype with
      | none =>
        dsimp only
        infer_instance
      | @some type _ =>
        have := hgrows type rfl
        dsimp only
        infer_instance
    · infer_instance
    · infer_instance
  · cases kind with
    | quant polarity rank domain name codomain =>
      obtain ⟨domain', codomain', rfl, hname, hdomain, hcodomain⟩ := hkind.quant_inv
      cases polarity with
      | existential => exact Check.reject_lockstep
      | universal =>
        cases htype with
        | none =>
          refine (Check.ensureFresh_lockstep hctx param).bind fun _ _ _ ↦ ?_
          exact lambdaBody_lockstep hbody hctx rank hparam hname hdomain hcodomain hexpected
        | @some type type' htype =>
          have := hgrows type rfl
          dsimp only
          refine (Check.ensureFresh_lockstep hctx param).bind fun _ _ _ ↦ ?_
          refine (htype.declare hctx param).bind fun declared declared' hdeclared ↦ ?_
          refine (Check.convert_lockstep hlive hctx hdeclared.rank hdeclared.type.found
            (Classified.related_isType rank hdomain)).bind fun _ _ _ ↦ ?_
          exact lambdaBody_lockstep hbody hctx rank hparam hname hdomain hcodomain hexpected
    | _ => cases hkind <;> exact Check.reject_lockstep

theorem lambdaRule_resolves (hlive : live = true → M.symbol = true) [body.Grows]
    (hbody : body.Resolves M live Clean body') {param : String} (hparam : operator? param = none) :
    (lambdaRule fuel self param body).Resolves M live (Found live)
      (lambdaRule fuel self' param body') where
  infer _ := Check.reject_lockstep
  check hctx _ _ hexpected := checkLambda_lockstep hlive hbody .none nofun hparam hctx hexpected

theorem typedLambdaRule_resolves (hlive : live = true → M.symbol = true) [type.Grows] [body.Grows]
    (htype : type.Resolves M live Clean type') (hbody : body.Resolves M live Clean body')
    {param : String} (hparam : operator? param = none) :
    (typedLambdaRule fuel self param type body).Resolves M live (Found live)
      (typedLambdaRule fuel self' param type' body') where
  infer {ctx ctx'} hctx := by
    dsimp only [typedLambdaRule]
    refine (Check.ensureFresh_lockstep hctx param).bind fun _ _ _ ↦ ?_
    refine (htype.declare hctx param).bind fun declared declared' hdeclared ↦ ?_
    have hinner := hctx.bindDeclared hparam hdeclared
    refine (hbody.infer hinner).bind fun j k hj ↦ ?_
    refine (Check.normalize_elaborated hinner hj.type.elaborates).bind
      fun bodyType bodyType' hbodyType ↦ ?_
    rw [hbodyType.occursFree_eq hparam]
    split
    · exact Check.reject_bind_lockstep
    · refine (Check.lambda_lockstep hparam hj.term).bind fun lambda lambda' hlambda ↦ ?_
      refine .pure ⟨hj.rank, ?_, hlambda⟩
      dsimp only [Core.quantify, Classified.withTerm]
      rw [← hdeclared.rank]
      exact (hdeclared.type.quantify hbodyType).found
  check hctx _ _ hexpected :=
    checkLambda_lockstep hlive hbody (.some htype) (fun _ h ↦ Option.some.inj h ▸ inferInstance)
      hparam hctx hexpected

theorem inferApplication_lockstep [operator.Grows] [argument.Grows]
    (hoperator : operator.Resolves M live Clean operator')
    (hargument : argument.Resolves M live Clean argument') (hctx : ctx.ResolvesTo live ctx') :
    Lockstep M.pace (Classified.Related (Found live) (Elaborates live))
      (inferApplication fuel self operator argument ctx)
      (inferApplication fuel self' operator' argument' ctx') := by
  refine (hoperator.infer hctx).bind_of_grows
    (fun _ ↦ .andThen fun _ ↦ by split <;> infer_instance) fun function function' hfunction ↦ ?_
  refine (Check.normalize_elaborated hctx hfunction.type.elaborates).bind_of_grows
    (fun _ ↦ by split <;> infer_instance) fun kind kind' hkind ↦ ?_
  cases kind with
  | quant polarity rank domain name codomain =>
    obtain ⟨domain', codomain', rfl, hname, hdomain, hcodomain⟩ := Clean.quant_inv hkind
    cases polarity with
    | existential => exact Check.reject_lockstep
    | universal =>
      refine (hargument.check hctx (Classified.related_isType rank hdomain)).bind
        fun operand operand' hoperand ↦ ?_
      have hresult : Core.Resolves (scope live) (scope live)
          (if name == anonymous then codomain else codomain.subst (.single name operand))
          (if name == anonymous then codomain' else codomain'.subst (.single name operand')) := by
        split
        · exact hcodomain.resolves
        · -- Names in the operand may be captured by the anonymous binders of the codomain.
          rename_i hcond
          have hplain := hname.resolve_left fun h ↦ hcond (beq_iff_eq.mpr h)
          exact hcodomain.resolves.subst subset_rfl subset_rfl (.single hplain hoperand.resolves)
      refine (Check.normalize_substituted hctx hresult).bind fun result result' hresult ↦ ?_
      refine .pure ⟨hfunction.rank, hresult, ?_⟩
      dsimp only
      rw [← hfunction.rank]
      exact .app _ hkind.resolves hfunction.term hoperand
  | _ => cases hkind <;> exact Check.reject_lockstep

theorem applicationRule_resolves (hlive : live = true → M.symbol = true) [operator.Grows]
    [argument.Grows] (hoperator : operator.Resolves M live Clean operator')
    (hargument : argument.Resolves M live Clean argument') :
    (applicationRule fuel self operator argument).Resolves M live (Found live)
      (applicationRule fuel self' operator' argument') where
  infer hctx := inferApplication_lockstep hoperator hargument hctx
  check hctx _ _ hexpected := checkByInference_lockstep hlive hctx
    (inferApplication_lockstep hoperator hargument hctx) hexpected

theorem checkAppliedLambda_lockstep [function.Grows] {found : Core → Core → Prop}
    (hfunction : function.Resolves M live found function')
    (hargument : argument.Resolves M live Clean argument') (hctx : ctx.ResolvesTo live ctx')
    {expected expected' : Classified Core} (hexpected : expected.Related Clean Clean expected') :
    Lockstep M.pace (Elaborates live) (checkAppliedLambda function argument ctx expected)
      (checkAppliedLambda function' argument' ctx' expected') := by
  refine (hargument.infer hctx).bind fun j k hj ↦ ?_
  have harrow : Classified.Related Clean Clean
      (expected.withTerm (Core.quantify .universal (j.withTerm anonymous) expected.term))
      (expected'.withTerm (Core.quantify .universal (k.withTerm anonymous) expected'.term)) := by
    refine ⟨hexpected.rank, hexpected.type, ?_⟩
    dsimp only [Core.quantify, Classified.withTerm]
    rw [← hj.rank]
    exact hj.type.quantify hexpected.term
  refine (hfunction.check hctx harrow).bind fun t t' ht ↦ ?_
  refine (Lockstep.ofOption (Classified.related_inhabitant? harrow ht)).bind fun op op' hop ↦ ?_
  refine .pure ?_
  dsimp only [Core.apply]
  rw [← hop.rank]
  exact .app _ hop.type.resolves hop.term hj.term

theorem appliedLambdaRule_resolves [function.Grows] [body.Grows] [argument.Grows]
    {found : Core → Core → Prop} (hfunction : function.Resolves M live found function')
    (hbody : body.Resolves M live Clean body')
    (hargument : argument.Resolves M live Clean argument') {param : String}
    (hparam : operator? param = none) :
    (appliedLambdaRule fuel self function param body argument).Resolves M live (Found live)
      (appliedLambdaRule fuel self' function' param body' argument') where
  infer hctx := (elaborateLet_lockstep hargument hbody hparam hctx .none).mono fun _ _ hj ↦ hj.found
  check hctx _ _ hexpected := checkAppliedLambda_lockstep hfunction hargument hctx hexpected

theorem appliedTypedLambdaRule_resolves (hlive : live = true → M.symbol = true) [function.Grows]
    [argument.Grows] (hfunction : function.Resolves M live (Found live) function')
    (hargument : argument.Resolves M live Clean argument') :
    (appliedTypedLambdaRule fuel self function argument).Resolves M live (Found live)
      (appliedTypedLambdaRule fuel self' function' argument') where
  infer hctx := inferApplication_lockstep (hfunction.logged hlive) hargument hctx
  check hctx _ _ hexpected := checkAppliedLambda_lockstep hfunction hargument hctx hexpected

end Functions

section Quantifiers

variable {σ σ' κ κ' : Type} {M : Aliasing σ σ'} {live : Bool} {fuel : Nat} {ctx ctx' : Ctx}
  {self self' : Term} {cls type body : Judged σ κ} {cls' type' body' : Judged σ' κ'}

/-- A quantifier, whatever its binder means for the body. -/
theorem quantifyOver_lockstep [body.Grows] (polarity : Polarity) {inner : Bool}
    (hbody : body.Resolves M inner Clean body') {binder binder' : Classified String}
    (hctx : (ctx.bindDeclared binder).ResolvesTo inner (ctx'.bindDeclared binder'))
    (hquantify : ∀ {t u : Core}, Elaborates inner t u →
      Elaborates live (.quantify polarity binder t) (.quantify polarity binder' u)) :
    Lockstep M.pace (Classified.Related Clean (Elaborates live))
      (quantifyOver polarity binder body ctx) (quantifyOver polarity binder' body' ctx') := by
  refine (hbody.infer hctx).bind_of_grows (fun _ ↦ by split <;> infer_instance)
    fun range range' hrange ↦ ?_
  obtain ⟨rank, kind, t⟩ := range
  obtain ⟨rank', kind', t'⟩ := range'
  obtain ⟨hrank, hkind, hterm⟩ := hrange
  change Clean kind kind' at hkind
  cases hkind with
  | univ m => exact .pure ⟨hrank, .univ m, hquantify hterm⟩
  | _ => exact Check.reject_lockstep

theorem quantifyOver_plain [body.Grows] (polarity : Polarity) {name : String}
    (hname : operator? name = none) (hbody : body.Resolves M live Clean body')
    (hctx : ctx.ResolvesTo live ctx') {binder binder' : Classified String}
    (hbinder : binder.Declares name binder') :
    Lockstep M.pace (Classified.Related Clean (Elaborates live))
      (quantifyOver polarity binder body ctx) (quantifyOver polarity binder' body' ctx') := by
  refine quantifyOver_lockstep polarity hbody (hctx.bindDeclared hname hbinder) fun ht ↦ ?_
  unfold Core.quantify
  rw [← hbinder.rank, hbinder.term.1, hbinder.term.2]
  exact .quant _ _ hname hbinder.type.resolves ht

/-- Below an anonymous binder, its name is not used. -/
theorem quantifyOver_anonymous [body.Grows] (polarity : Polarity)
    (hbody : body.Resolves M false Clean body') (hctx : ctx.ResolvesTo live ctx')
    {binder binder' : Classified String} (hbinder : binder.Declares anonymous binder') :
    Lockstep M.pace (Classified.Related Clean (Elaborates live))
      (quantifyOver polarity binder body ctx) (quantifyOver polarity binder' body' ctx') := by
  refine quantifyOver_lockstep polarity hbody (hctx.bindAnonymous hbinder) fun ht ↦ ?_
  unfold Core.quantify
  rw [← hbinder.rank, hbinder.term.1, hbinder.term.2]
  exact .arrow _ _ hbinder.type.resolves ht

theorem quantifyOverClass_lockstep [cls.Grows] [body.Grows] (polarity : Polarity) {name : String}
    (hname : operator? name = none) (hcls : cls.Resolves M live Clean cls')
    (hbody : body.Resolves M false Clean body') (hctx : ctx.ResolvesTo live ctx') :
    Lockstep M.pace (Classified.Related Clean (Elaborates live))
      (quantifyOverClass fuel polarity name cls body ctx)
      (quantifyOverClass fuel polarity name cls' body' ctx') := by
  refine (hcls.infer hctx).bind_of_grows (fun _ ↦ .andThen fun _ ↦ by
    (repeat' split) <;> infer_instance) fun j k hj ↦ ?_
  refine (Check.normalized_lockstep hctx hj).bind_of_grows
    (fun _ ↦ by (repeat' split) <;> infer_instance) fun cls cls' hcls ↦ ?_
  obtain ⟨rank, kind, t⟩ := cls
  obtain ⟨rank', kind', t'⟩ := cls'
  obtain ⟨hrank, hkind, hterm⟩ := hcls
  change Clean kind kind' at hkind
  obtain rfl : rank = rank' := hrank
  cases kind with
  | quant quantifier domainRank domain bound codomain =>
    obtain ⟨domain', codomain', rfl, -, hdomain, hcodomain⟩ := hkind.quant_inv
    cases quantifier with
    | existential => exact Check.reject_lockstep
    | universal =>
      cases hcodomain with
      | univ instanceRank =>
        have hparameter : Classified.Declares name ⟨domainRank, domain, name⟩
            ⟨domainRank, domain', name⟩ := ⟨rfl, hdomain, rfl, rfl⟩
        have hevidence : Classified.Declares anonymous
            ⟨instanceRank, .apply ⟨rank, _, t⟩ (.var name), anonymous⟩
            ⟨instanceRank, .apply ⟨rank, _, t'⟩ (.var name), anonymous⟩ :=
          ⟨rfl, .app rank hkind hterm (.var hname), rfl, rfl⟩
        refine (quantifyOver_anonymous polarity hbody (hctx.bindDeclared hname hparameter)
          hevidence).bind fun range range' hrange ↦ ?_
        refine .pure ⟨hrange.rank, hrange.type, ?_⟩
        exact .quant _ _ hname hdomain.resolves hrange.term
      | _ => exact Check.reject_lockstep
  | _ => cases hkind <;> exact Check.reject_lockstep

theorem quantifierRule_resolves (hlive : live = true → M.symbol = true)
    {infer : Ctx → Check σ κ (Classified Core)} {infer' : Ctx → Check σ' κ' (Classified Core)}
    [∀ ctx, (infer ctx).Grows]
    (h : ∀ {ctx ctx' : Ctx}, ctx.ResolvesTo live ctx' →
      Lockstep M.pace (Classified.Related Clean (Elaborates live)) (infer ctx) (infer' ctx')) :
    (quantifierRule fuel self infer).Resolves M live (Found live)
      (quantifierRule fuel self' infer') where
  infer hctx := (h hctx).mono fun _ _ hj ↦ hj.found
  check hctx _ _ hexpected := by
    refine (Check.normalize_elaborated hctx hexpected.term.elaborates).bind_of_grows
      (fun _ ↦ by split <;> infer_instance) fun kind kind' hkind ↦ ?_
    cases hkind with
    | univ n =>
      exact checkTypeByInference_lockstep hlive hctx ((h hctx).mono fun _ _ hj ↦ hj.found) hexpected
    | _ => exact Check.reject_lockstep

/-- A binder with a name leaves the symbols of the operations alone. -/
theorem inferUnbounded_lockstep [body.Grows] (polarity : Polarity) {name : Option String}
    (hname : ∀ x ∈ name, operator? x = none)
    (hbody : body.Resolves M (name.isSome && live) Clean body') (hctx : ctx.ResolvesTo live ctx') :
    Lockstep M.pace (Classified.Related Clean (Elaborates live))
      (inferUnbounded polarity name body ctx) (inferUnbounded polarity name body' ctx') := by
  refine (Check.ensureFresh_lockstep hctx _).bind fun _ _ _ ↦ ?_
  cases name with
  | none => exact quantifyOver_anonymous polarity hbody hctx ⟨rfl, .univ 0, rfl, rfl⟩
  | some name =>
    exact quantifyOver_plain polarity (hname name rfl) hbody hctx ⟨rfl, .univ 0, rfl, rfl⟩

theorem inferTypeBound_lockstep [type.Grows] [body.Grows] (polarity : Polarity)
    {name : Option String} (hname : ∀ x ∈ name, operator? x = none)
    (htype : type.Resolves M live Clean type')
    (hbody : body.Resolves M (name.isSome && live) Clean body') (hctx : ctx.ResolvesTo live ctx') :
    Lockstep M.pace (Classified.Related Clean (Elaborates live))
      (inferTypeBound fuel polarity name type body ctx)
      (inferTypeBound fuel polarity name type' body' ctx') := by
  refine (Check.ensureFresh_lockstep hctx _).bind fun _ _ _ ↦ ?_
  refine (htype.declare hctx _).bind fun binder binder' hbinder ↦ ?_
  cases name with
  | none => exact quantifyOver_anonymous polarity hbody hctx hbinder
  | some name => exact quantifyOver_plain polarity (hname name rfl) hbody hctx hbinder

/-- The evidence for a class bound is anonymous. -/
theorem inferClassBound_lockstep [cls.Grows] [body.Grows] (polarity : Polarity)
    {name : Option String} (hname : ∀ x ∈ name, operator? x = none)
    (hcls : cls.Resolves M live Clean cls') (hbody : body.Resolves M false Clean body')
    (hctx : ctx.ResolvesTo live ctx') :
    Lockstep M.pace (Classified.Related Clean (Elaborates live))
      (inferClassBound fuel polarity name cls body ctx)
      (inferClassBound fuel polarity name cls' body' ctx') := by
  cases name with
  | none => exact (Check.ensureFresh_lockstep hctx _).bind fun _ _ _ ↦ Check.reject_lockstep
  | some name =>
    refine (Check.ensureFresh_lockstep hctx _).bind fun _ _ _ ↦ ?_
    exact quantifyOverClass_lockstep polarity (hname name rfl) hcls hbody hctx

end Quantifiers

section Records

variable {σ σ' κ κ' : Type} {M : Aliasing σ σ'} {live : Bool} {fuel : Nat} {ctx ctx' : Ctx}
  {self self' : Term} {fields : List (String × Judged σ κ)} {fields' : List (String × Judged σ' κ')}

/-- The same names, none of them that of an operation, for rules in lockstep. -/
def FieldsResolve (M : Aliasing σ σ') (live : Bool) :
    List (String × Judged σ κ) → List (String × Judged σ' κ') → Prop :=
  List.Forall₂ fun field field' ↦ field.1 = field'.1 ∧ operator? field.1 = none ∧
    field.2.Resolves M live Clean field'.2

theorem inferTelescope_lockstep (hgrows : ∀ field ∈ fields, field.2.Grows)
    (h : FieldsResolve M live fields fields') (hctx : ctx.ResolvesTo live ctx') :
    Lockstep M.pace (fun p q ↦ p.1 = q.1 ∧ p.2.Resolves ∅ ∅ q.2) (inferTelescope fuel ctx fields)
      (inferTelescope fuel ctx' fields') := by
  induction h generalizing ctx ctx' with
  | nil => exact .pure ⟨rfl, .nil⟩
  | @cons field field' rest rest' hfield _ ih =>
    obtain ⟨name, type⟩ := field
    obtain ⟨_, type'⟩ := field'
    obtain ⟨rfl, hname, htype⟩ := hfield
    obtain ⟨htypeGrows, hrestGrows⟩ := List.forall_mem_cons.mp hgrows
    have hgrowsRest : ∀ ctx, (inferTelescope fuel ctx rest).Grows := inferTelescope_grows hrestGrows
    refine (Check.ensureFresh_lockstep hctx _).bind fun _ _ _ ↦ ?_
    refine (htype.declare hctx _).bind fun declared declared' hdeclared ↦ ?_
    refine (ih hrestGrows (hctx.bindDeclared hname hdeclared)).bind fun p q hpq ↦ ?_
    obtain ⟨rank, types⟩ := p
    obtain ⟨_, types'⟩ := q
    obtain ⟨rfl, htypes⟩ := hpq
    dsimp only
    rw [← hdeclared.rank]
    exact .pure ⟨rfl, .cons _ hname hdeclared.type htypes⟩

theorem signatureRule_resolves (hlive : live = true → M.symbol = true)
    (hgrows : ∀ field ∈ fields, field.2.Grows) (h : FieldsResolve M live fields fields') :
    (signatureRule fuel self fields).Resolves M live (Found live)
      (signatureRule fuel self' fields') := by
  have hinfer {ctx ctx' : Ctx} (hctx : ctx.ResolvesTo live ctx') :
      Lockstep M.pace (Classified.Related (Found live) (Elaborates live))
        (inferSignature fuel fields ctx) (inferSignature fuel fields' ctx') := by
    refine (inferTelescope_lockstep hgrows h hctx).bind fun p q hpq ↦ ?_
    obtain ⟨rank, types⟩ := p
    obtain ⟨_, types'⟩ := q
    obtain ⟨rfl, htypes⟩ := hpq
    exact .pure ⟨rfl, .univ _, .signature (htypes.mono (Set.empty_subset _) (Set.empty_subset _))⟩
  exact ⟨hinfer, fun hctx _ _ hexpected ↦
    checkTypeByInference_lockstep hlive hctx (hinfer hctx) hexpected⟩

theorem subst_lockstep {earlier earlier' : Substitution} (hearlier : earlier.Resolves ∅ earlier')
    {t u : Core} (h : Elaborates live t u) :
    Lockstep M.pace (Elaborates live) (Check.subst earlier t : Check σ κ Core)
      (Check.subst earlier' u : Check σ' κ' Core) :=
  Check.stamp_lockstep (h.subst (Set.empty_subset _) (Set.empty_subset _) hearlier)

theorem inferMembers_lockstep (hgrows : ∀ field ∈ fields, field.2.Grows)
    (h : FieldsResolve M live fields fields') (hctx : ctx.ResolvesTo live ctx')
    {earlier earlier' : Substitution} (hearlier : earlier.Resolves ∅ earlier') :
    Lockstep M.pace (fun p q ↦ p.1 = q.1 ∧ p.2.1.Resolves ∅ ∅ q.2.1 ∧
        Core.ResolvesMembers (scope false) (scope live) p.2.2 q.2.2)
      (inferMembers fuel ctx earlier fields) (inferMembers fuel ctx' earlier' fields') := by
  induction h generalizing ctx ctx' earlier earlier' with
  | nil => exact .pure ⟨rfl, .nil, .nil⟩
  | @cons field field' rest rest' hfield _ ih =>
    obtain ⟨name, body⟩ := field
    obtain ⟨_, body'⟩ := field'
    obtain ⟨rfl, hname, hbody⟩ := hfield
    obtain ⟨hbodyGrows, hrestGrows⟩ := List.forall_mem_cons.mp hgrows
    have hgrowsRest : ∀ ctx earlier, (inferMembers fuel ctx earlier rest).Grows :=
      inferMembers_grows hrestGrows
    refine (Check.ensureFresh_lockstep hctx _).bind fun _ _ _ ↦ ?_
    refine (hbody.infer hctx).bind fun defined defined' hdefined ↦ ?_
    refine (Check.normalized_lockstep hctx hdefined).bind fun value value' hvalue ↦ ?_
    refine (subst_lockstep hearlier hdefined.term).bind fun member member' hmember ↦ ?_
    refine (ih hrestGrows (hctx.bind hname hvalue) (hearlier.insert hname hvalue.term)).bind
      fun p q hpq ↦ ?_
    obtain ⟨rank, types, members⟩ := p
    obtain ⟨_, types', members'⟩ := q
    obtain ⟨rfl, htypes, hmembers⟩ := hpq
    dsimp only
    rw [← hvalue.rank]
    exact .pure ⟨rfl, .cons _ hname hvalue.type htypes, .cons hmember hmembers⟩

theorem checkMembers_lockstep (hgrows : ∀ field ∈ fields, field.2.Grows)
    (h : FieldsResolve M live fields fields') {types types' : Telescope}
    (htypes : types.Resolves ∅ ∅ types') (position : Nat) (hctx : ctx.ResolvesTo live ctx')
    {earlier earlier' : Substitution} (hearlier : earlier.Resolves ∅ earlier') :
    Lockstep M.pace (Core.ResolvesMembers (scope false) (scope live))
      (checkMembers fuel position ctx earlier fields types)
      (checkMembers fuel position ctx' earlier' fields' types') := by
  induction h generalizing types types' position ctx ctx' earlier earlier' with
  | nil => exact .pure .nil
  | @cons field field' rest rest' hfield _ ih =>
    obtain ⟨name, body⟩ := field
    obtain ⟨_, body'⟩ := field'
    obtain ⟨rfl, hname, hbody⟩ := hfield
    obtain ⟨hbodyGrows, hrestGrows⟩ := List.forall_mem_cons.mp hgrows
    have hgrowsRest : ∀ position ctx earlier types,
        (checkMembers fuel position ctx earlier rest types).Grows := checkMembers_grows hrestGrows
    have hgrowsBody : body.Grows := hbodyGrows
    cases htypes with
    | nil => exact .pure .nil
    | @cons _ rank label type type' types types' hlabel htype htypes =>
      rw [checkMembers, checkMembers]
      dsimp only
      split
      · exact Check.reject_bind_lockstep
      · refine (Check.ensureFresh_lockstep hctx _).bind fun _ _ _ ↦ ?_
        have htype : Classified.Related Clean (Elaborates live) ⟨rank + 1, .univ rank, type⟩
            ⟨rank + 1, .univ rank, type'⟩ := ⟨rfl, .univ rank, Clean.elaborates htype⟩
        refine (Check.normalized_lockstep hctx htype).bind fun expected expected' hexpected ↦ ?_
        refine (hbody.check hctx hexpected).bind fun t t' ht ↦ ?_
        have hdefined : Classified.Related Clean (Elaborates live) ⟨rank, expected.term, t⟩
            ⟨rank, expected'.term, t'⟩ := ⟨rfl, hexpected.term, ht⟩
        refine (Check.normalized_lockstep hctx hdefined).bind fun value value' hvalue ↦ ?_
        refine (subst_lockstep hearlier ht).bind fun member member' hmember ↦ ?_
        refine (ih hrestGrows htypes (position + 1) (hctx.bind hname hvalue)
          (hearlier.insert hname hvalue.term)).bind fun members members' hmembers ↦ ?_
        exact .pure (.cons hmember hmembers)

theorem Telescope.Resolves.length_eq {under free : Set String} {types types' : Telescope}
    (h : types.Resolves under free types') : types.length = types'.length := by
  cases types with
  | nil =>
    cases h
    rfl
  | cons _ _ _ rest =>
    cases h with
    | cons _ _ _ hrest => exact congrArg (· + 1) hrest.length_eq

theorem recordRule_resolves (hgrows : ∀ field ∈ fields, field.2.Grows)
    (h : FieldsResolve M live fields fields') :
    (recordRule fuel self fields).Resolves M live (Found live) (recordRule fuel self' fields') where
  infer hctx := by
    refine (inferMembers_lockstep hgrows h hctx .nil).bind fun p q hpq ↦ ?_
    obtain ⟨rank, types, members⟩ := p
    obtain ⟨_, types', members'⟩ := q
    obtain ⟨rfl, htypes, hmembers⟩ := hpq
    exact .pure ⟨rfl, .signature (htypes.mono (Set.empty_subset _) (Set.empty_subset _)),
      .record hmembers⟩
  check {ctx ctx'} hctx _ _ hexpected := by
    have hgrowsMembers : ∀ types, (checkMembers fuel 0 ctx [] fields types).Grows :=
      checkMembers_grows hgrows 0 ctx []
    refine (Check.normalize_elaborated hctx hexpected.term.elaborates).bind_of_grows
      (fun _ ↦ by (repeat' split) <;> infer_instance) fun kind kind' hkind ↦ ?_
    cases hkind with
    | @signature _ types types' htypes =>
      dsimp only
      rw [← htypes.length_eq, ← List.Forall₂.length_eq h]
      split
      · exact Check.reject_bind_lockstep
      · exact (checkMembers_lockstep hgrows h htypes 0 hctx .nil).bind fun _ _ hmembers ↦
          .pure (.record hmembers)
    | _ => exact Check.reject_lockstep

theorem findMember?_resolves {names : Set String} {record record' : Classified Core}
    (hrecord : record.Related (Core.Resolves names names) (Core.Resolves names names) record')
    (name : String) {types types' : Telescope} (htypes : types.Resolves ∅ ∅ types')
    (position : Nat) {earlier earlier' : Substitution}
    (hearlier : earlier.Resolves names earlier') :
    Option.Rel (Classified.Related (Core.Resolves names names) Eq)
      (findMember? record name position earlier types)
      (findMember? record' name position earlier' types') := by
  cases htypes with
  | nil => exact .none
  | cons rank hlabel htype hrest =>
    unfold findMember?
    split
    · have htype := htype.mono (Set.empty_subset names) (Set.empty_subset names)
      exact .some ⟨rfl, htype.subst subset_rfl subset_rfl hearlier, rfl⟩
    · refine findMember?_resolves hrecord name hrest (position + 1) (hearlier.insert hlabel ?_)
      rw [Core.project, Core.project, ← hrecord.rank]
      exact .proj _ _ hrecord.type hrecord.term

theorem inferAccess_lockstep {operator : Judged σ κ} {operator' : Judged σ' κ'} (name : String)
    [operator.Grows] (hoperator : operator.Resolves M live Clean operator')
    (hctx : ctx.ResolvesTo live ctx') :
    Lockstep M.pace (Classified.Related (Found live) (Elaborates live))
      (inferAccess fuel operator name ctx) (inferAccess fuel operator' name ctx') := by
  refine (hoperator.infer hctx).bind_of_grows (fun _ ↦ .andThen fun _ ↦ by
    dsimp only
    (repeat' split) <;> infer_instance) fun j k hj ↦ ?_
  refine (Check.normalize_elaborated hctx hj.type.elaborates).bind_of_grows (fun _ ↦ by
    dsimp only
    (repeat' split) <;> infer_instance) fun kind kind' hkind ↦ ?_
  cases hkind with
  | @signature _ types types' htypes =>
    have hrecord : Classified.Related (Core.Resolves (scope live) (scope live))
        (Core.Resolves (scope live) (scope live)) ⟨j.rank, .signature types, j.term⟩
        ⟨k.rank, .signature types', k.term⟩ :=
      ⟨hj.rank, (Clean.resolves (.signature htypes)), hj.term.resolves⟩
    have hmember := findMember?_resolves hrecord name htypes 0 .nil
    dsimp only
    revert hmember
    generalize findMember? _ name 0 [] types = member
    generalize findMember? _ name 0 [] types' = member'
    intro hmember
    cases hmember with
    | none => exact Check.reject_lockstep
    | some hmember =>
      refine (Check.normalize_substituted hctx hmember.type).bind fun type type' htype ↦ ?_
      refine .pure ⟨hmember.rank, htype, ?_⟩
      dsimp only [Core.project]
      rw [← hj.rank, hmember.term]
      exact .proj _ _ (Clean.resolves (.signature htypes)) hj.term
  | _ => exact Check.reject_lockstep

end Records

end RankedTT
