import RankedTT.Typing.Check

/-!
Typing rules for record types, records and member access. The members are taken in order: the type
of a member may mention the members before it, and in a record they stand for their values.
-/

set_option autoImplicit false
set_option relaxedAutoImplicit false

namespace RankedTT

variable {σ κ : Type}

/-- The greatest rank of the member types, and the members. -/
def inferTelescope (fuel : Nat) : Ctx → List (String × Judged σ κ) → Check σ κ (Nat × Telescope)
  | _, [] => return (0, .nil)
  | ctx, (name, type) :: rest => do
    Check.ensureFresh ctx name
    let declared ← type.declare fuel ctx name
    let (rank, members) ← inferTelescope fuel (ctx.bindDeclared declared) rest
    return (max declared.rank rank, .cons declared.rank declared.type name members)

def inferSignature (fuel : Nat) (members : List (String × Judged σ κ)) (ctx : Ctx) :
    Check σ κ (Classified Core) := do
  let (rank, members) ← inferTelescope fuel ctx members
  return ⟨rank + 1, .univ rank, .signature members⟩

def signatureRule (fuel : Nat) (self : Term) (members : List (String × Judged σ κ)) :
    Judged σ κ where
  term := self
  infer := inferSignature fuel members
  check := checkTypeByInference fuel self (inferSignature fuel members)

/-- The greatest rank of the members, their types and their terms; `earlier` holds the values of the
members before them. -/
def inferMembers (fuel : Nat) :
    Ctx → Substitution → List (String × Judged σ κ) → Check σ κ (Nat × Telescope × List Core)
  | _, _, [] => return (0, .nil, [])
  | ctx, earlier, (name, body) :: rest => do
    Check.ensureFresh ctx name
    let defined ← body.infer ctx
    let value ← Check.normalized fuel ctx defined
    let member ← Check.subst earlier defined.term
    let (rank, types, members) ←
      inferMembers fuel (ctx.bind name value) (Substitution.insert earlier name value.term) rest
    return (max value.rank rank, .cons value.rank value.type name types, member :: members)

/-- The terms of the members against the types of a signature. -/
def checkMembers (fuel : Nat) :
    Nat → Ctx → Substitution → List (String × Judged σ κ) → Telescope → Check σ κ (List Core)
  | position, ctx, earlier, (name, body) :: rest, .cons rank type label types => do
    if name != label then Check.reject (.memberNameMismatch position label name)
    Check.ensureFresh ctx name
    let expected ← Check.normalized fuel ctx ⟨rank + 1, .univ rank, type⟩
    let elaborated ← body.check ctx expected
    let value ← Check.normalized fuel ctx ⟨rank, expected.term, elaborated⟩
    let member ← Check.subst earlier elaborated
    let members ← checkMembers fuel (position + 1) (ctx.bind name value)
      (Substitution.insert earlier name value.term) rest types
    return member :: members
  | _, _, _, _, _ => return []

def recordRule (fuel : Nat) (self : Term) (members : List (String × Judged σ κ)) :
    Judged σ κ where
  term := self
  infer ctx := do
    let (rank, types, members) ← inferMembers fuel ctx [] members
    return ⟨rank, .signature types, .record members⟩
  check ctx expected := do
    match ← Check.normalize fuel ctx expected.term with
    | .signature types =>
      if types.length != members.length then
        Check.reject (.arityMismatch types.length members.length)
      return .record (← checkMembers fuel 0 ctx [] members types)
    | other => Check.reject (.expectedRecordType self other)

/-- The position of the first member called `name`, classified by the type of that member with the
members before it projected from the record. -/
def findMember? (record : Classified Core) (name : String) :
    Nat → Substitution → Telescope → Option (Classified Nat)
  | _, _, .nil => none
  | position, earlier, .cons rank type label rest =>
    if label == name then some ⟨rank, type.subst earlier, position⟩
    else
      let earlier := Substitution.insert earlier label (.project record position)
      findMember? record name (position + 1) earlier rest

def inferAccess (fuel : Nat) (operator : Judged σ κ) (name : String) (ctx : Ctx) :
    Check σ κ (Classified Core) := do
  let found ← operator.infer ctx
  let type ← Check.normalize fuel ctx found.type
  let record : Classified Core := ⟨found.rank, type, found.term⟩
  match type with
  | .signature members =>
    match findMember? record name 0 [] members with
    | some member =>
      let memberType ← Check.normalize fuel ctx member.type
      return ⟨member.rank, memberType, .project record member.term⟩
    | none => Check.reject (.unknownMember name type)
  | _ => Check.reject (.expectedRecordType operator.term type)

def accessRule (fuel : Nat) (self : Term) (operator : Judged σ κ) (name : String) :
    Judged σ κ where
  term := self
  infer := inferAccess fuel operator name
  check := checkTypeByInference fuel self (inferAccess fuel operator name)

def danglingAccessRule (self : Term) (name : String) : Judged σ κ where
  term := self
  infer _ := Check.reject (.danglingAccess name)
  check _ _ := Check.reject (.danglingAccess name)

end RankedTT
