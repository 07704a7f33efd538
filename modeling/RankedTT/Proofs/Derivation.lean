import RankedTT.Proofs.Names
import RankedTT.Typing.Judge

/-!
The typing rules as a relation. A derivation says what a term is elaborated to, and it records every
move that elaboration makes on the way with names and core terms: normalizing a term, putting terms
in for names, binding a name, and taking terms below an anonymous binder. The relation asks nothing
of the moves. What the typing rules answer can be derived, with moves that were computed; whether
the answer is also right depends on whether each move keeps the meaning of the names.

Only programs without imports whose constants are literals have derivations.
-/

set_option autoImplicit false
set_option relaxedAutoImplicit false

namespace RankedTT

/-! ### Moves -/

inductive Move where
  /-- The normal form of a term. -/
  | normalize (ctx : Ctx) (t result : Core)
  /-- Terms in place of names. -/
  | substitute (images : Substitution) (t result : Core)
  /-- A name that the program binds. -/
  | name (name : String)
  /-- The name of a quantifier was bound, which may be the anonymous one; `ctx` is the context
  after that. -/
  | quantify (ctx : Ctx) (name : String)
  /-- A type that mentions no name of its own goes below an anonymous binder. -/
  | weaken (t : Core)

/-- The result of a move is what normalization or substitution gives, up to stamps. Putting a term
in for the anonymous name, or a name in for itself, is left out. -/
def Move.Computed (fuel : Nat) : Move → Prop
  | normalize ctx t result =>
    ∃ n, t.normalForm fuel ctx.values = .ok n ∧ result.unstamped = n.unstamped
  | substitute images t result =>
    result.unstamped = (t.subst images).unstamped ∨
      ∃ name image, images = .single name image ∧ (name = anonymous ∨ image = .var name) ∧
        result = t
  | name _ | quantify _ _ | weaken _ => True

@[simp]
theorem Move.computed_name (fuel : Nat) (x : String) : (Move.name x).Computed fuel := trivial

@[simp]
theorem Move.computed_quantify (fuel : Nat) (ctx : Ctx) (x : String) :
    (Move.quantify ctx x).Computed fuel :=
  trivial

@[simp]
theorem Move.computed_weaken (fuel : Nat) (t : Core) : (Move.weaken t).Computed fuel := trivial

/-! ### Derivations -/

/-- Integers and strings, with the types that the prelude has for them. -/
inductive Classified.IsLiteral : Classified Value → Prop
  | int (n : Int) : IsLiteral ⟨0, .var "int", .int n⟩
  | string (s : String) : IsLiteral ⟨0, .var "string", .str s⟩

/-- The terms that are checked by comparing their inferred type with the expected one. -/
def Term.isInferred : Term → Bool
  | .var _ | .quant .. | .signature _ | .access .. | .const _ | .typeOf _ => true
  | .app (.lam ..) _ | .app (.typedLam ..) _ => false
  | .app .. => true
  | _ => false

/-- `Selects record name i earlier types σ rank type j`: of the members `types`, which start at the
position `i`, the first one called `name` has the type `type` and the position `j`, and `σ` adds the
projections of the members in between to `earlier`. -/
inductive Selects (record : Classified Core) (name : String) :
    Nat → Substitution → Telescope → Substitution → Nat → Core → Nat → Prop
  | here {i rank : Nat} {earlier : Substitution} {type : Core} {rest : Telescope} :
      Selects record name i earlier (.cons rank type name rest) earlier rank type i
  | there {i rank rank' j : Nat} {earlier σ : Substitution} {type type' : Core} {label : String}
      {rest : Telescope} (hlabel : label ≠ name)
      (h : Selects record name (i + 1) (.insert earlier label (.project record i)) rest σ rank type
        j) :
      Selects record name i earlier (.cons rank' type' label rest) σ rank type j

mutual

/-- `Infers moves ctx t found`: the rules infer the judgement `found` for the term `t`. -/
inductive Infers : List Move → Ctx → Term → Classified Core → Prop
  | univ {ctx : Ctx} (rank : Nat) : Infers [] ctx (.univ rank) (.ofUniverse rank)
  | var {ctx : Ctx} {name : String} {judgement : Classified Core}
      (h : Env.get? ctx.vars name = some judgement) :
      Infers [] ctx (.var name) (judgement.withTerm (.var name))
  | typedLam {ctx : Ctx} {param : String} {type body : Term} {moves moves' : List Move}
      {rank : Nat} {domain bodyType function : Core} {found : Classified Core}
      (hfresh : ctx.isFresh param = true) (htype : InfersType moves ctx type rank domain)
      (hbody : Infers moves' (ctx.bindDeclared ⟨rank, domain, param⟩) body found)
      (hparam : bodyType.occursFree param = false)
      (hfunction : function.unstamped = (Core.lam param none found.term).unstamped) :
      Infers (moves ++ moves' ++
          [.name param, .normalize (ctx.bindDeclared ⟨rank, domain, param⟩) found.type bodyType,
            .weaken bodyType])
        ctx (.typedLam param type body)
        ⟨found.rank, .quant .universal rank domain anonymous bodyType, function⟩
  | app {ctx : Ctx} {operator argument : Term} {moves moves' : List Move} {rank : Nat}
      {name : String} {domain codomain operand result : Core} {function : Classified Core}
      (range : Core) (hoperator : ∀ param body, operator ≠ .lam param body)
      (hfunction : Infers moves ctx operator function)
      (hargument : Checks moves' ctx argument ⟨rank + 1, .univ rank, domain⟩ operand) :
      Infers (moves ++ moves' ++
          [.normalize ctx function.type (.quant .universal rank domain name codomain),
            .substitute (.single name operand) codomain range, .normalize ctx range result])
        ctx (.app operator argument)
        ⟨function.rank, result,
          .app function.rank (.quant .universal rank domain name codomain) function.term operand⟩
  | appliedLam {ctx : Ctx} {param : String} {body argument : Term} {moves : List Move}
      {found : Classified Core} (h : Binds moves ctx param argument body none found) :
      Infers moves ctx (.app (.lam param body) argument) found
  | quantUnbounded {ctx : Ctx} {polarity : Polarity} {name : Option String} {body : Term}
      {moves : List Move} {found : Classified Core} (hfresh : ctx.isFresh (boundName name) = true)
      (h : Quantifies moves ctx polarity ⟨1, .univ 0, boundName name⟩ body found) :
      Infers moves ctx (.quant polarity .unbounded name body) found
  | quantType {ctx : Ctx} {polarity : Polarity} {name : Option String} {type body : Term}
      {moves moves' : List Move} {rank : Nat} {domain : Core} {found : Classified Core}
      (hfresh : ctx.isFresh (boundName name) = true) (htype : InfersType moves ctx type rank domain)
      (h : Quantifies moves' ctx polarity ⟨rank, domain, boundName name⟩ body found) :
      Infers (moves ++ moves') ctx (.quant polarity (.type type) name body) found
  | quantClass {ctx : Ctx} {polarity : Polarity} {name param : String} {cls body : Term}
      {moves moves' : List Move} {rank instanceRank : Nat} {domain operator : Core}
      {found range : Classified Core} (hfresh : ctx.isFresh name = true)
      (hcls : Infers moves ctx cls found)
      (h : Quantifies moves' (ctx.bindDeclared ⟨rank, domain, name⟩) polarity
        ⟨instanceRank,
          .app found.rank (.quant .universal rank domain param (.univ instanceRank)) operator
            (.var name),
          anonymous⟩ body range) :
      Infers (moves ++ moves' ++
          [.normalize ctx found.type (.quant .universal rank domain param (.univ instanceRank)),
            .normalize ctx found.term operator, .name name])
        ctx (.quant polarity (.typeClass cls) (some name) body)
        (range.map (Core.quantify polarity ⟨rank, domain, name⟩))
  | signature {ctx : Ctx} {fields : Fields} {moves : List Move} {rank : Nat} {types : Telescope}
      (h : InfersTelescope moves ctx fields rank types) :
      Infers moves ctx (.signature fields) ⟨rank + 1, .univ rank, .signature types⟩
  | record {ctx : Ctx} {fields : Fields} {moves : List Move} {rank : Nat} {types : Telescope}
      {members : List Core} (h : InfersMembers moves ctx [] fields rank types members) :
      Infers moves ctx (.record fields) ⟨rank, .signature types, .record members⟩
  | access {ctx : Ctx} {operator : Term} {name : String} {moves : List Move} {rank index : Nat}
      {types : Telescope} {earlier : Substitution} {type result : Core} {found : Classified Core}
      (memberType : Core) (hoperator : Infers moves ctx operator found)
      (hmember : Selects ⟨found.rank, .signature types, found.term⟩ name 0 [] types earlier rank
        type index) :
      Infers (moves ++
          [.normalize ctx found.type (.signature types), .substitute earlier type memberType,
            .normalize ctx memberType result])
        ctx (.access operator name)
        ⟨rank, result, .proj found.rank (.signature types) found.term index⟩
  | anno {ctx : Ctx} {type term : Term} {moves moves' : List Move} {rank : Nat}
      {domain elaborated : Core} (htype : InfersType moves ctx type rank domain)
      (hterm : Checks moves' ctx term ⟨rank + 1, .univ rank, domain⟩ elaborated) :
      Infers (moves ++ moves') ctx (.anno type term) ⟨rank, domain, elaborated⟩
  | letIn {ctx : Ctx} {name : String} {definition body : Term} {moves : List Move}
      {found : Classified Core} (h : Binds moves ctx name definition body none found) :
      Infers moves ctx (.letIn name definition body) found
  | literal {ctx : Ctx} {content : Classified Value} (h : content.IsLiteral) :
      Infers [] ctx (.const content) (content.map .const)
  | typeOf {ctx : Ctx} {term : Term} {moves : List Move} {found : Classified Core}
      (h : Infers moves ctx term found) : Infers moves ctx (.typeOf term) found.typeOf

/-- `Checks moves ctx t expected elaborated`: against the type that `expected` is about, the rules
elaborate `t` to `elaborated`. -/
inductive Checks : List Move → Ctx → Term → Classified Core → Core → Prop
  | univ {ctx : Ctx} {expected : Classified Core} (rank : Nat) :
      Checks [.normalize ctx expected.term (.univ (rank + 1))] ctx (.univ rank) expected
        (.univ rank)
  | lam {ctx : Ctx} {param : String} {body : Term} {moves : List Move} {rank : Nat}
      {domain function : Core} {expected : Classified Core}
      (h : ChecksLambda moves ctx param body expected rank domain function) :
      Checks moves ctx (.lam param body) expected function
  | typedLam {ctx : Ctx} {param : String} {type body : Term} {moves moves' : List Move}
      {rank rank' : Nat} {domain domain' function n n' : Core} {expected : Classified Core}
      (htype : InfersType moves ctx type rank' domain') (halpha : n'.alphaEq n = true)
      (h : ChecksLambda moves' ctx param body expected rank domain function) :
      Checks (moves ++ moves' ++ [.normalize ctx domain' n', .normalize ctx domain n]) ctx
        (.typedLam param type body) expected function
  | appliedLambda {ctx : Ctx} {operator argument : Term} {moves moves' : List Move} {rank : Nat}
      {function : Core} {found expected : Classified Core}
      (hoperator : (Term.app operator argument).isInferred = false)
      (hargument : Infers moves ctx argument found) (hrank : expected.type = .univ rank)
      (hfunction : Checks moves' ctx operator
        (expected.withTerm (.quant .universal found.rank found.type anonymous expected.term))
        function) :
      Checks (moves ++ moves' ++ [.weaken expected.term]) ctx (.app operator argument)
        expected
        (.app rank (.quant .universal found.rank found.type anonymous expected.term) function
          found.term)
  | record {ctx : Ctx} {fields : Fields} {moves : List Move} {types : Telescope}
      {members : List Core} {expected : Classified Core}
      (h : ChecksMembers moves ctx [] fields types members) :
      Checks (moves ++ [.normalize ctx expected.term (.signature types)]) ctx (.record fields)
        expected (.record members)
  | anno {ctx : Ctx} {type term : Term} {moves moves' : List Move} {rank : Nat}
      {domain elaborated n n' : Core} {expected : Classified Core}
      (htype : InfersType moves ctx type rank domain) (halpha : n.alphaEq n' = true)
      (hterm : Checks moves' ctx term expected elaborated) :
      Checks (moves ++ moves' ++ [.normalize ctx domain n, .normalize ctx expected.term n']) ctx
        (.anno type term) expected elaborated
  | letIn {ctx : Ctx} {name : String} {definition body : Term} {moves : List Move}
      {expected found : Classified Core}
      (h : Binds moves ctx name definition body (some expected) found) :
      Checks moves ctx (.letIn name definition body) expected found.term
  | inferred {ctx : Ctx} {term : Term} {moves : List Move} {n n' : Core}
      {expected found : Classified Core} (hterm : term.isInferred = true)
      (h : Infers moves ctx term found) (hrank : found.rank + 1 = expected.rank)
      (halpha : n.alphaEq n' = true) :
      Checks (moves ++ [.normalize ctx found.type n, .normalize ctx expected.term n']) ctx term
        expected found.term

/-- `InfersType moves ctx t rank domain`: names may range over the type `t`, which has the normal
form `domain` and the rank `rank`. -/
inductive InfersType : List Move → Ctx → Term → Nat → Core → Prop
  | mk {ctx : Ctx} {type : Term} {moves : List Move} {rank : Nat} {domain : Core}
      {found : Classified Core} (h : Infers moves ctx type found) :
      InfersType
        (moves ++ [.normalize ctx found.type (.univ rank), .normalize ctx found.term domain])
        ctx type rank domain

/-- `Ensures moves ctx t expected found`: inference, or checking if a type is expected. -/
inductive Ensures : List Move → Ctx → Term → Option (Classified Core) → Classified Core → Prop
  | infer {ctx : Ctx} {term : Term} {moves : List Move} {found : Classified Core}
      (h : Infers moves ctx term found) : Ensures moves ctx term none found
  | check {ctx : Ctx} {term : Term} {moves : List Move} {rank : Nat} {elaborated : Core}
      {expected : Classified Core} (hrank : expected.type = .univ rank)
      (h : Checks moves ctx term expected elaborated) :
      Ensures moves ctx term (some expected) ⟨rank, expected.term, elaborated⟩

/-- `Binds moves ctx name definition body expected found`: a let binding. -/
inductive Binds : List Move → Ctx → String → Term → Term → Option (Classified Core) →
    Classified Core → Prop
  | mk {ctx : Ctx} {name : String} {definition body : Term} {moves moves' : List Move}
      {type term result function : Core} {expected : Option (Classified Core)}
      {defined elaborated : Classified Core} (hfresh : ctx.isFresh name = true)
      (hdefinition : Infers moves ctx definition defined)
      (hbody : Ensures moves' (ctx.bind name ⟨defined.rank, type, term⟩) body expected elaborated)
      (hfunction : function.unstamped = (Core.lam name none elaborated.term).unstamped) :
      Binds (moves ++ moves' ++
          [.normalize ctx defined.type type, .normalize ctx defined.term term, .name name,
            .normalize (ctx.bind name ⟨defined.rank, type, term⟩) elaborated.type result,
            .weaken result])
        ctx name definition body expected
        ⟨elaborated.rank, result,
          .app elaborated.rank (.quant .universal defined.rank defined.type anonymous result)
            function defined.term⟩

/-- `ChecksLambda moves ctx param body expected rank domain function`: a lambda against a function
type with the domain `domain`. -/
inductive ChecksLambda : List Move → Ctx → String → Term → Classified Core → Nat → Core → Core →
    Prop
  | mk {ctx : Ctx} {param : String} {body : Term} {moves : List Move} {rank : Nat}
      {domain range elaborated function : Core} {expected : Classified Core} (name : String)
      (codomain : Core) (hfresh : ctx.isFresh param = true)
      (hbody : Checks moves (ctx.bindDeclared ⟨rank, domain, param⟩) body
        (expected.withTerm range) elaborated)
      (hfunction : function.unstamped = (Core.lam param none elaborated).unstamped) :
      ChecksLambda (moves ++
          [.normalize ctx expected.term (.quant .universal rank domain name codomain),
            .name param, .substitute (.single name (.var param)) codomain range])
        ctx param body expected rank domain function

/-- `Quantifies moves ctx polarity binder body found`: the quantifier that binds `binder` in the
type `body`. -/
inductive Quantifies : List Move → Ctx → Polarity → Classified String → Term → Classified Core →
    Prop
  | mk {ctx : Ctx} {polarity : Polarity} {binder : Classified String} {body : Term}
      {moves : List Move} {rank : Nat} {range : Classified Core}
      (h : Infers moves (ctx.bindDeclared binder) body range) (hrank : range.type = .univ rank) :
      Quantifies (moves ++ [.quantify (ctx.bindDeclared binder) binder.term]) ctx polarity binder
        body (range.map (Core.quantify polarity binder))

/-- The members of a record type. -/
inductive InfersTelescope : List Move → Ctx → Fields → Nat → Telescope → Prop
  | nil {ctx : Ctx} : InfersTelescope [] ctx .nil 0 .nil
  | cons {ctx : Ctx} {name : String} {type : Term} {rest : Fields} {moves moves' : List Move}
      {rank rank' : Nat} {domain : Core} {types : Telescope} (hfresh : ctx.isFresh name = true)
      (htype : InfersType moves ctx type rank domain)
      (hrest : InfersTelescope moves' (ctx.bindDeclared ⟨rank, domain, name⟩) rest rank' types) :
      InfersTelescope (moves ++ moves' ++ [.name name]) ctx
        (.cons name type rest) (max rank rank') (.cons rank domain name types)

/-- The members of a record; `earlier` holds the values of the members before them. -/
inductive InfersMembers : List Move → Ctx → Substitution → Fields → Nat → Telescope → List Core →
    Prop
  | nil {ctx : Ctx} {earlier : Substitution} : InfersMembers [] ctx earlier .nil 0 .nil []
  | cons {ctx : Ctx} {earlier : Substitution} {name : String} {body : Term} {rest : Fields}
      {moves moves' : List Move} {rank : Nat} {type term member : Core} {types : Telescope}
      {members : List Core} {defined : Classified Core} (hfresh : ctx.isFresh name = true)
      (hbody : Infers moves ctx body defined)
      (hrest : InfersMembers moves' (ctx.bind name ⟨defined.rank, type, term⟩)
        (.insert earlier name term) rest rank types members) :
      InfersMembers (moves ++ moves' ++
          [.normalize ctx defined.type type, .normalize ctx defined.term term,
            .substitute earlier defined.term member, .name name])
        ctx earlier (.cons name body rest) (max defined.rank rank)
        (.cons defined.rank type name types) (member :: members)

/-- The members of a record against the types of a signature. -/
inductive ChecksMembers : List Move → Ctx → Substitution → Fields → Telescope → List Core → Prop
  | nil {ctx : Ctx} {earlier : Substitution} : ChecksMembers [] ctx earlier .nil .nil []
  | cons {ctx : Ctx} {earlier : Substitution} {name : String} {body : Term} {rest : Fields}
      {moves moves' : List Move} {rank : Nat}
      {type expected kind elaborated value valueType member : Core} {types : Telescope}
      {members : List Core} (hfresh : ctx.isFresh name = true)
      (hbody : Checks moves ctx body ⟨rank + 1, kind, expected⟩ elaborated)
      (hrest : ChecksMembers moves' (ctx.bind name ⟨rank, valueType, value⟩)
        (.insert earlier name value) rest types members) :
      ChecksMembers (moves ++ moves' ++
          [.normalize ctx (.univ rank) kind, .normalize ctx type expected,
            .normalize ctx expected valueType, .normalize ctx elaborated value,
            .substitute earlier elaborated member, .name name])
        ctx earlier (.cons name body rest) (.cons rank type name types) (member :: members)

end

/-! ### Derivability -/

/-- There is a derivation that makes only the moves that are allowed. -/
def Derivable (allowed : Move → Prop) (derivation : List Move → Prop) : Prop :=
  ∃ moves, derivation moves ∧ ∀ m ∈ moves, allowed m

section Derivable

variable {allowed : Move → Prop} {P P' Q : List Move → Prop} {own : List Move}

theorem Derivable.map (h : Derivable allowed P) (hPQ : ∀ moves, P moves → Q moves) :
    Derivable allowed Q := by
  obtain ⟨moves, hP, hmoves⟩ := h
  exact ⟨moves, hPQ moves hP, hmoves⟩

/-- A rule with one premise and moves of its own. -/
theorem Derivable.step (h : Derivable allowed P) (hown : ∀ m ∈ own, allowed m)
    (hPQ : ∀ moves, P moves → Q (moves ++ own)) : Derivable allowed Q := by
  obtain ⟨moves, hP, hmoves⟩ := h
  exact ⟨_, hPQ moves hP, List.forall_mem_append.mpr ⟨hmoves, hown⟩⟩

/-- A rule with two premises. -/
theorem Derivable.both (h : Derivable allowed P) (h' : Derivable allowed P')
    (hQ : ∀ moves moves', P moves → P' moves' → Q (moves ++ moves')) : Derivable allowed Q := by
  obtain ⟨moves', hP', hmoves'⟩ := h'
  exact h.step hmoves' fun moves hP ↦ hQ moves moves' hP hP'

theorem Derivable.step₂ (h : Derivable allowed P) (h' : Derivable allowed P')
    (hown : ∀ m ∈ own, allowed m)
    (hQ : ∀ moves moves', P moves → P' moves' → Q (moves ++ moves' ++ own)) :
    Derivable allowed Q := by
  obtain ⟨moves, hP, hmoves⟩ := h
  obtain ⟨moves', hP', hmoves'⟩ := h'
  refine ⟨_, hQ moves moves' hP hP', ?_⟩
  exact List.forall_mem_append.mpr ⟨List.forall_mem_append.mpr ⟨hmoves, hmoves'⟩, hown⟩

end Derivable

end RankedTT
