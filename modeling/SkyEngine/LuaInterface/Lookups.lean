import SkyEngine.LuaInterface.Cast
import SkyEngine.Lib.Query

/-!
# LuaInterface — Lookups

Which class ids an operation looks up. `DynamicCast`, `ReadType`,
`WriteType` and `MetaLuaCast` are written once more as programs that ask
for the class of the `Object` at an address; run against an initialised
system they are the operations themselves, and what they ask are the
addresses whose ids go through `GetMetaClassById`.
-/

namespace SkyEngine.Meta

open Forest Lua

variable {κ σ : Type} [DecidableEq κ] {R : Registrations κ}

/-- A program that looks up classes by the address of an `Object`. -/
abbrev ClassQuery (κ α : Type) := Query Int (MetaPtr κ) Fault α

/-- `GetMetaClassById(pObject->GetMetaClassId())`. -/
def MetaSystem.classAt (sys : MetaSystem κ) (ids : ObjectIds) (pObject : Int) :
    Except Fault (MetaPtr κ) :=
  sys.getMetaClassById (ids pObject)

section

variable (api : LuaApi κ σ) (sys : MetaSystem κ) (lay : Layout R) (ids : ObjectIds)

/-! ## The operations as programs -/

def castQuery (this : MetaPtr κ) (pObj : Int) (sourceType : MetaPtr κ) : ClassQuery κ Int :=
  match castStart sys lay this pObj sourceType with
  | .done result => .pure result
  | .lookup pObject =>
      (Query.lookup pObject).map fun pObjectClass =>
        castFinish sys lay this pObjectClass pObject

def writtenQuery (this : MetaPtr κ) (pObject : Int) : ClassQuery κ Int :=
  match baseObject lay this pObject with
  | none => .pure pObject
  | some pBase => (Query.lookup pBase).map fun mc => lay.downcast mc.type pBase

def writeQuery (this : MetaPtr κ) (pObject : Int) (L : σ) : ClassQuery κ σ :=
  if pObject = 0 then .pure (api.push L .nil)
  else (writtenQuery lay this pObject).bind fun result =>
    if sizeOfType R this.type = 0 then .fail .outOfBounds
    else
      let (u, L) := api.newuserdata L (sizeOfType R this.type)
      let L := api.poke L u result
      let L := api.getglobal L (sys.obj this).name
      .pure (api.setmetatable L)

def readQuery (this : MetaPtr κ) (L : σ) (index : Int) (object : Int) :
    ClassQuery κ (ReadResult σ) :=
  let raise (L : σ) (err : String) : ClassQuery κ (ReadResult σ) :=
    .pure ⟨L, object, some (expectedMessage (sys.obj this).name err)⟩
  if api.type L index = .nil then .pure ⟨L, 0, none⟩
  else
    match api.touserdata L index with
    | none => raise L (api.typename (api.type L index))
    | some pObject =>
        match api.getmetatable L index with
        | none => raise L (api.typename (api.type L index))
        | some L =>
            let L := api.getfield L (-1) "__metaclass"
            let metaClass := api.touserdata L (-1)
            let L := api.settop L (-3)
            match metaClass with
            | none => raise L "<unknown userdata>"
            | some (.light (.metaClass metaClass)) =>
                if acceptsClass sys this metaClass then
                  (castQuery sys lay this (api.peek L pObject) metaClass).map
                    fun result => ⟨L, result, none⟩
                else raise L (sys.obj metaClass).name
            | some _ => .fail .badPointer

def sourceQuery (R : Registrations κ) (sys : MetaSystem κ) (pBase : Int) :
    ClassQuery κ (MetaPtr κ) :=
  if pBase = 0 then .pure (sys.self R.voidType) else .lookup pBase

def castObjectQuery (upval sourceType : MetaPtr κ) (pBase : Int) (L : σ) : ClassQuery κ σ :=
  let sourceClass :=
    if (sys.obj sourceType).isClass then sourceType else sys.self R.voidType
  if isDerivedFrom sourceClass upval then
    writeQuery api sys lay sourceClass (lay.downcast sourceClass.type pBase) L
  else .pure (api.push L .nil)

def luaCastQuery (objectType : κ) (upval : MetaPtr κ) (L : σ) :
    ClassQuery κ (σ × Option String) :=
  let mc := sys.self objectType
  (readQuery api sys lay mc L 1 0).bind fun r =>
    match r.error with
    | some err => .pure (r.state, some err)
    | none =>
        let pBase := lay.upcast mc.type r.object
        (sourceQuery R sys pBase).bind fun sourceType =>
          (castObjectQuery api sys lay upval sourceType pBase r.state).map fun L => (L, none)

/-! ## The programs are the operations -/

theorem run_castQuery (this : MetaPtr κ) (pObj : Int) (sourceType : MetaPtr κ) :
    (castQuery sys lay this pObj sourceType).run (sys.classAt ids)
      = dynamicCast sys lay ids this pObj sourceType := by
  unfold castQuery dynamicCast
  cases castStart sys lay this pObj sourceType with
  | done result => rfl
  | lookup pObject =>
      rw [Query.run_map, Query.run_lookup]
      rfl

theorem run_writtenQuery (this : MetaPtr κ) (pObject : Int) :
    (writtenQuery lay this pObject).run (sys.classAt ids)
      = writtenPointer sys lay ids this pObject := by
  unfold writtenQuery writtenPointer
  cases baseObject lay this pObject with
  | none => rfl
  | some pBase =>
      simp only [Query.run_map, Query.run_lookup]
      rfl

theorem run_writeQuery (this : MetaPtr κ) (pObject : Int) (L : σ) :
    (writeQuery api sys lay this pObject L).run (sys.classAt ids)
      = writeType api sys lay ids this pObject L := by
  unfold writeQuery writeType
  split
  · rfl
  · rw [Query.run_bind, run_writtenQuery]
    congr 1
    funext result
    split
    · rfl
    · rfl

theorem run_readQuery (this : MetaPtr κ) (L : σ) (index : Int) (object : Int) :
    (readQuery api sys lay this L index object).run (sys.classAt ids)
      = readType api sys lay ids this L index object := by
  simp only [readQuery, readType]
  by_cases hnil : api.type L index = .nil
  · simp only [hnil, if_true]
    rfl
  · simp only [hnil, if_false]
    cases api.touserdata L index with
    | none => rfl
    | some pObject =>
        cases api.getmetatable L index with
        | none => rfl
        | some L =>
            dsimp only
            cases api.touserdata (api.getfield L (-1) "__metaclass") (-1) with
            | none => rfl
            | some p =>
                cases p with
                | block u => rfl
                | light p =>
                    cases p with
                    | other a => rfl
                    | metaClass metaClass =>
                        by_cases hacc : acceptsClass sys this metaClass = true
                        · simp only [hacc, if_true, Query.run_map, run_castQuery]
                          rfl
                        · simp only [hacc]
                          rfl

omit [DecidableEq κ] in
theorem run_sourceQuery (pBase : Int) :
    (sourceQuery R sys pBase).run (sys.classAt ids) = castSource R sys ids pBase := by
  unfold sourceQuery castSource
  split
  · rfl
  · exact Query.run_lookup _ _

theorem run_castObjectQuery (upval sourceType : MetaPtr κ) (pBase : Int) (L : σ) :
    (castObjectQuery api sys lay upval sourceType pBase L).run (sys.classAt ids)
      = castObject api sys lay ids upval sourceType pBase L := by
  simp only [castObjectQuery, castObject]
  generalize (if (sys.obj sourceType).isClass = true then sourceType
    else sys.self R.voidType) = sourceClass
  split
  · exact run_writeQuery api sys lay ids _ _ _
  · rfl

theorem run_luaCastQuery (objectType : κ) (upval : MetaPtr κ) (L : σ) :
    (luaCastQuery api sys lay objectType upval L).run (sys.classAt ids)
      = metaLuaCast api sys lay ids objectType upval L := by
  unfold luaCastQuery metaLuaCast
  rw [Query.run_bind, run_readQuery]
  congr 1
  funext r
  cases r.error with
  | some err => rfl
  | none =>
      simp only [Query.run_bind, Query.run_map, run_sourceQuery, run_castObjectQuery]
      rfl

/-! ## What they look up -/

/-- The metaclass a full userdata is labelled with. -/
def labelOf (v : LuaState κ) (u : Nat) : Option (MetaPtr κ) :=
  match v.metatable u with
  | none => none
  | some t =>
      match v.field t "__metaclass" with
      | .lightuserdata (.metaClass m) => some m
      | _ => none

omit [DecidableEq κ] in
theorem labelOf_eq_some {v : LuaState κ} {u : Nat} {m : MetaPtr κ} :
    labelOf v u = some m ↔ ∃ t, v.metatable u = some t
      ∧ v.field t "__metaclass" = .lightuserdata (.metaClass m) := by
  unfold labelOf
  cases v.metatable u with
  | none => simp
  | some t =>
      simp only [Option.some.injEq, exists_eq_left']
      split
      · rename_i m' hfield
        simp [hfield]
      · rename_i hfield
        simpa using hfield m

variable (oracle : Int → Except Fault (MetaPtr κ))

theorem asked_castQuery (this : MetaPtr κ) (pObj : Int) (sourceType : MetaPtr κ) :
    (castQuery sys lay this pObj sourceType).asked oracle
      = match castStart sys lay this pObj sourceType with
        | .done _ => []
        | .lookup pObject => [pObject] := by
  unfold castQuery
  cases castStart sys lay this pObj sourceType with
  | done result => rfl
  | lookup pObject => simp

theorem asked_writeQuery (this : MetaPtr κ) {pObject : Int} (hp : pObject ≠ 0) (L : σ) :
    (writeQuery api sys lay this pObject L).asked oracle
      = (baseObject lay this pObject).toList := by
  have hwritten : (writtenQuery lay this pObject).asked oracle
      = (baseObject lay this pObject).toList := by
    unfold writtenQuery
    cases baseObject lay this pObject with
    | none => rfl
    | some pBase => simp
  -- storing the pointer asks nothing more
  rw [writeQuery, if_neg hp, Query.asked_bind, hwritten]
  cases (writtenQuery lay this pObject).run oracle with
  | error e => simp
  | ok result =>
      dsimp only
      split
      · simp
      · simp

omit [DecidableEq κ] in
theorem asked_sourceQuery (pBase : Int) :
    (sourceQuery R sys pBase).asked oracle = if pBase = 0 then [] else [pBase] := by
  unfold sourceQuery
  split
  · rfl
  · simp

theorem asked_castObjectQuery (upval sourceType : MetaPtr κ) (pBase : Int) (L : σ) :
    (castObjectQuery api sys lay upval sourceType pBase L).asked oracle = [] := by
  simp [castObjectQuery, isDerivedFrom]

section Userdata

variable {api} {L : σ} {index : Int} {u : Nat}

/-- Reading a labelled userdata is the cast of its pointer, if the label is
accepted. -/
theorem readQuery_labelled (this : MetaPtr κ)
    (hu : (api.view L).get? index = some (.userdata u)) {m : MetaPtr κ}
    (hm : labelOf (api.view L) u = some m) (object : Int) :
    ∃ L' err, readQuery api sys lay this L index object
      = if acceptsClass sys this m then
          (castQuery sys lay this ((api.view L).block u) m).map fun result => ⟨L', result, none⟩
        else .pure ⟨L', object, some err⟩ := by
  obtain ⟨t, ht, hfield⟩ := labelOf_eq_some.mp hm
  obtain ⟨htype, hptr⟩ := api.userdata_at hu
  obtain ⟨L₁, hmeta, hlabel, h₃⟩ := api.metafield_of_userdata hu ht "__metaclass"
  rw [hfield] at hlabel
  have hlight : api.touserdata (api.getfield L₁ (-1) "__metaclass") (-1)
      = some (.light (.metaClass m)) := hlabel
  have hpeek : api.peek (api.settop (api.getfield L₁ (-1) "__metaclass") (-3)) (.block u)
      = (api.view L).block u := by
    rw [api.peek_eq, h₃]
  have hne : ¬ LuaType.userdata = LuaType.nil := by decide
  refine ⟨api.settop (api.getfield L₁ (-1) "__metaclass") (-3),
    expectedMessage (sys.obj this).name (sys.obj m).name, ?_⟩
  simp only [readQuery, htype, hne, if_false, hptr, hmeta, hlight, hpeek]

/-- Reading any other userdata is an error at once. -/
theorem readQuery_unlabelled (this : MetaPtr κ)
    (hu : (api.view L).get? index = some (.userdata u))
    (hm : labelOf (api.view L) u = none) (object : Int) :
    ∃ r, readQuery api sys lay this L index object = .done r
      ∧ ∀ a, r = .ok a → a.error.isSome = true := by
  obtain ⟨htype, hptr⟩ := api.userdata_at hu
  have hne : ¬ LuaType.userdata = LuaType.nil := by decide
  have heq := api.getmetatable_eq L index u hu
  have raised : ∀ r : ReadResult σ, r.error.isSome = true →
      ∃ r', (.pure r : ClassQuery κ (ReadResult σ)) = .done r'
        ∧ ∀ a, r' = .ok a → a.error.isSome = true := by
    intro r hr
    refine ⟨.ok r, rfl, ?_⟩
    intro a ha
    cases ha
    exact hr
  have faulted : ∀ e : Fault, ∃ r', (.fail e : ClassQuery κ (ReadResult σ)) = .done r'
      ∧ ∀ a, r' = .ok a → a.error.isSome = true := by
    intro e
    refine ⟨.error e, rfl, ?_⟩
    intro a ha
    cases ha
  simp only [readQuery, htype, hne, if_false, hptr]
  cases hmeta : api.getmetatable L index with
  | none => exact raised _ rfl
  | some L₁ =>
      rw [hmeta] at heq
      obtain ⟨t, ht, h₁⟩ := Option.map_eq_some_iff.mp heq.symm
      have hlabel := (api.metafield h₁.symm "__metaclass").1
      dsimp only
      cases hlight : api.touserdata (api.getfield L₁ (-1) "__metaclass") (-1) with
      | none => exact raised _ rfl
      | some p =>
          cases p with
          | block a => exact faulted _
          | light q =>
              cases q with
              | other a => exact faulted _
              | metaClass m =>
                  -- it would be the label that is not there
                  have hfield := Value.userPtr_eq_light.mp (hlabel.symm.trans hlight)
                  have hsome := labelOf_eq_some.mpr ⟨t, ht, hfield⟩
                  rw [hm] at hsome
                  cases hsome

/-- **The lookups of `MetaLuaCast`** on a labelled userdata: those of the
cast to `Object`, then the class of what the cast returned. -/
theorem asked_luaCastQuery_labelled (objectType : κ) (upval : MetaPtr κ)
    (hu : (api.view L).get? 1 = some (.userdata u)) {m : MetaPtr κ}
    (hm : labelOf (api.view L) u = some m) (p : Int → Prop) :
    (∀ a ∈ (luaCastQuery api sys lay objectType upval L).asked oracle, p a)
      ↔ (acceptsClass sys (sys.self objectType) m = true →
          (∀ a ∈ (castQuery sys lay (sys.self objectType) ((api.view L).block u) m).asked oracle,
              p a)
            ∧ ∀ result,
              (castQuery sys lay (sys.self objectType) ((api.view L).block u) m).run oracle
                = .ok result →
              lay.upcast (sys.self objectType).type result ≠ 0 →
              p (lay.upcast (sys.self objectType).type result)) := by
  obtain ⟨L', err, hread⟩ := readQuery_labelled sys lay (sys.self objectType) hu hm 0
  unfold luaCastQuery
  rw [Query.forall_asked_bind, hread]
  by_cases hacc : acceptsClass sys (sys.self objectType) m = true
  · simp only [hacc, if_true, Query.asked_map, Query.run_map, forall_const]
    refine and_congr_right fun _ => ?_
    cases (castQuery sys lay (sys.self objectType) ((api.view L).block u) m).run oracle with
    | error e => simp [Except.map]
    | ok result =>
        simp only [Except.map, Except.ok.injEq, forall_eq', Query.forall_asked_bind,
          asked_sourceQuery, Query.asked_map, asked_castObjectQuery, List.not_mem_nil,
          false_implies, implies_true, and_true]
        split
        · simp_all
        · simp_all
  · simp only [hacc, Bool.false_eq_true, if_false, Query.asked_pure, Query.run_pure,
      Except.ok.injEq, forall_eq', List.not_mem_nil, false_implies, implies_true, and_self]

theorem asked_luaCastQuery_unlabelled (objectType : κ) (upval : MetaPtr κ)
    (hu : (api.view L).get? 1 = some (.userdata u)) (hm : labelOf (api.view L) u = none) :
    (luaCastQuery api sys lay objectType upval L).asked oracle = [] := by
  obtain ⟨r, hread, herr⟩ := readQuery_unlabelled sys lay (sys.self objectType) hu hm 0
  unfold luaCastQuery
  rw [Query.asked_bind, hread]
  cases r with
  | error e => rfl
  | ok a =>
      obtain ⟨err, herr⟩ := Option.isSome_iff_exists.mp (herr a rfl)
      simp [herr]

end Userdata

end

end SkyEngine.Meta
