import SkyEngine.LuaInterface.Lookups
import SkyEngine.LuaInterface.RoundTrip

/-!
# LuaInterface — ClassIds

The class ids stored in objects, over whole runs of a program: objects are
built and destroyed in any order around the one `Initialize`, and cast,
pushed and cast again from Lua afterwards.

A constructor stores the id its class has at that moment. Before
`Initialize` that is -1, and `Initialize` corrects the one object it is
called on, so the lookups of an operation come out right exactly when its
object was built late enough, from a class the table of classes kept, and
is reached through a label that puts `Object` in the same place.
-/

namespace SkyEngine.Meta

open Function (update update_self update_of_ne)
open Forest Position Lua

variable {κ σ : Type} [DecidableEq κ] {R : Registrations κ}

/-! ## A program and its operations -/

/-- What does not change while a program runs. `objectType` is the class
`Object` itself. -/
structure Host (κ σ : Type) [DecidableEq κ] (R : Registrations κ) where
  api : LuaApi κ σ
  lay : Layout R
  objectType : κ
  object_mem : objectType ∈ R.classes
  object_offset : lay.objectOffset objectType = some 0

/-- A live object: the class whose constructor built it, the address of its
`Object` subobject, and whether it was built before `Initialize`. -/
structure Instance (κ : Type) where
  type : κ
  pObject : Int
  early : Bool

/-- The state of a program. `system` is the initialised system with the
object it belongs to; `handle` tells which live object a userdata was
pushed for. -/
structure Program (κ σ : Type) where
  ids : ObjectIds
  live : List (Instance κ)
  system : Option (MetaSystem κ × Int)
  lua : σ
  handle : Nat → Option Int

/-- A C++ pointer: its static type and its value. -/
structure Pointer (κ : Type) where
  static : κ
  address : Int

/-- The operations that look classes up. -/
inductive Operation (κ : Type) where
  | dynamicCast (T : κ) (p : Pointer κ)
  | writeType (p : Pointer κ)
  | luaCast (T : κ) (args : List (LuaValue κ))

/-- The pointer points to the object, through its class or one above. Where
a base without an `Object` lies is not known. -/
def Pointer.To (lay : Layout R) (p : Pointer κ) (x : Instance κ) : Prop :=
  p.static ∈ R.classes ∧ (p.static = x.type ∨ Ancestor R.parentOf p.static x.type)
    ∧ p.address ≠ 0 ∧ (lay.IsObject p.static → p.address = lay.part x.pObject p.static)

/-- `MetaClassId(D)`, the id of the active metaclass. -/
def Program.metaClassId (R : Registrations κ) (s : Program κ σ) (D : κ) : Int :=
  match s.system with
  | none => (R.statics.obj (R.statics.self D)).globalId
  | some (sys, _) => sys.metaClassIdOf D

/-- A constructor of `D` has run; the `Object` is at `o`. -/
def Program.built (R : Registrations κ) (s : Program κ σ) (D : κ) (o : Int) : Program κ σ :=
  { s with
    ids := update s.ids o (s.metaClassId R D)
    live := ⟨D, o, s.system.isNone⟩ :: s.live }

/-- The object at `o` is gone, and with it what userdata stood for it. -/
def Program.destroyed (s : Program κ σ) (o : Int) : Program κ σ :=
  { s with
    live := s.live.filter fun x => x.pObject ≠ o
    handle := fun u => if s.handle u = some o then none else s.handle u }

/-- `Initialize` has run on the object at `o`. -/
def Program.initialised (s : Program κ σ) (sys : MetaSystem κ) (o : Int) : Program κ σ :=
  { s with
    ids := update s.ids o sys.metaClassId
    system := some (sys, o) }

namespace Operation

variable (H : Host κ σ R) (sys : MetaSystem κ)

/-- What the operation does to Lua. -/
def perform (ids : ObjectIds) (lua : σ) : Operation κ → Except Fault σ
  | .dynamicCast T p =>
      (Meta.dynamicCast sys H.lay ids (sys.self T) p.address (sys.self p.static)).map fun _ => lua
  | .writeType p => Meta.writeType H.api sys H.lay ids (sys.self p.static) p.address lua
  | .luaCast T args =>
      (metaLuaCast H.api sys H.lay ids H.objectType (sys.self T) (H.api.enter lua args)).map
        Prod.fst

def query (lua : σ) : Operation κ → ClassQuery κ σ
  | .dynamicCast T p =>
      (castQuery sys H.lay (sys.self T) p.address (sys.self p.static)).map fun _ => lua
  | .writeType p => writeQuery H.api sys H.lay (sys.self p.static) p.address lua
  | .luaCast T args =>
      (luaCastQuery H.api sys H.lay H.objectType (sys.self T) (H.api.enter lua args)).map
        Prod.fst

theorem run_query (ids : ObjectIds) (lua : σ) (op : Operation κ) :
    (op.query H sys lua).run (sys.classAt ids) = op.perform H sys ids lua := by
  cases op with
  | dynamicCast T p => rw [query, Query.run_map, run_castQuery, perform]
  | writeType p => rw [query, run_writeQuery, perform]
  | luaCast T args => rw [query, Query.run_map, run_luaCastQuery, perform]

/-- The live object an operation is performed on. -/
def On (s : Program κ σ) (op : Operation κ) (x : Instance κ) : Prop :=
  x ∈ s.live ∧
    match op with
    | .dynamicCast T p => T ∈ R.classes ∧ p.To H.lay x
    | .writeType p => p.To H.lay x
    | .luaCast T args => T ∈ R.classes
        ∧ ∃ u, args[0]? = some (.userdata u) ∧ s.handle u = some x.pObject

/-- `lua_setmetatable` must find a table or nil on top of the stack. -/
def Settable (s : Program κ σ) : Operation κ → Prop
  | .writeType p => (∃ t, (H.api.view s.lua).global (R.nameOf p.static) = .table t)
      ∨ (H.api.view s.lua).global (R.nameOf p.static) = .nil
  | _ => True

/-- `WriteType` of an `Object` pointer leaves a userdata for the object. -/
def handleAfter (s : Program κ σ) (x : Instance κ) : Operation κ → Nat → Option Int
  | .writeType p =>
      if H.lay.IsObject p.static then
        update s.handle (H.api.view s.lua).userdataCount (some x.pObject)
      else s.handle
  | _ => s.handle

end Operation

/-- A lookup is right when it takes the id from the object itself, the id
is an index of `m_classes`, and the slot holds the active metaclass of the
class that built the object. -/
def Program.Finds (s : Program κ σ) (sys : MetaSystem κ) (x : Instance κ) (a : Int) : Prop :=
  a = x.pObject ∧ 0 ≤ s.ids a ∧ s.ids a < kMaxClasses
    ∧ sys.getMetaClassById (s.ids a) = .ok (sys.self x.type)

/-- Every lookup of the operation is right. -/
def Operation.LookupsValid (H : Host κ σ R) (sys : MetaSystem κ) (s : Program κ σ)
    (op : Operation κ) (x : Instance κ) : Prop :=
  ∀ a ∈ (op.query H sys s.lua).asked (sys.classAt s.ids), s.Finds sys x a

/-- The object can be looked up: its class is the one listed under its
name, and it was built after `Initialize` or is the object `Initialize`
was called on. -/
def Instance.Known (R : Registrations κ) (systemObject : Int) (x : Instance κ) : Prop :=
  R.Listed x.type ∧ (x.early = false ∨ x.pObject = systemObject)

/-- The condition on one operation. `DynamicCast` to the static type and
pointers without an `Object` look nothing up; of the userdata given to
`MetaLuaCast`, only the label matters. -/
def Operation.Meets (H : Host κ σ R) (sys : MetaSystem κ) (systemObject : Int)
    (s : Program κ σ) (op : Operation κ) (x : Instance κ) : Prop :=
  match op with
  | .dynamicCast T p => T = p.static ∨ ¬ H.lay.IsObject p.static ∨ x.Known R systemObject
  | .writeType p => ¬ H.lay.IsObject p.static ∨ x.Known R systemObject
  | .luaCast _ args => ∀ u m off, args[0]? = some (.userdata u) →
      labelOf (H.api.view s.lua) u = some m →
      acceptsClass sys (sys.self H.objectType) m = true → (sys.obj m).isClass = true →
      H.lay.objectOffset m.type = some off → H.lay.objectOffset x.type = some off

/-! ## Runs -/

/-- The states of a program whose operations satisfy `ok`. Memory outside
the live objects, and Lua outside the pointers kept in userdata, may change
in any way in between. -/
inductive Program.Reaches (H : Host κ σ R)
    (ok : MetaSystem κ → Int → Program κ σ → Operation κ → Instance κ → Prop) :
    Program κ σ → Prop
  | start {s : Program κ σ} : s.live = [] → s.system = none → (∀ u, s.handle u = none) →
      Reaches H ok s
  | construct {s : Program κ σ} {D : κ} {o : Int} : Reaches H ok s → D ∈ R.classes →
      H.lay.IsObject D → 0 < H.lay.part o D → (∀ x ∈ s.live, x.pObject ≠ o) →
      Reaches H ok (s.built R D o)
  | destroy {s : Program κ σ} {o : Int} : Reaches H ok s →
      (∀ sys, s.system ≠ some (sys, o)) → Reaches H ok (s.destroyed o)
  | initializeSystem {s : Program κ σ} {x : Instance κ} {walk : List (MetaPtr κ)} {fuel : Nat}
      {sys : MetaSystem κ} : Reaches H ok s → s.system = none → x ∈ s.live →
      x.type = R.systemType → R.Walk walk → R.classes.length ≤ fuel →
      initializeSystem R walk fuel = .ok sys → Reaches H ok (s.initialised sys x.pObject)
  | other {s : Program κ σ} {ids : ObjectIds} {lua : σ} : Reaches H ok s →
      (∀ x ∈ s.live, ids x.pObject = s.ids x.pObject) →
      (∀ u a, s.handle u = some a → u < (H.api.view lua).userdataCount
        ∧ (H.api.view lua).block u = (H.api.view s.lua).block u) →
      Reaches H ok { s with ids := ids, lua := lua }
  | perform {s : Program κ σ} {sys : MetaSystem κ} {o : Int} {op : Operation κ}
      {x : Instance κ} {lua : σ} : Reaches H ok s → s.system = some (sys, o) →
      op.On H s x → op.Settable H s → ok sys o s op x →
      op.perform H sys s.ids s.lua = .ok lua →
      Reaches H ok { s with lua := lua, handle := op.handleAfter H s x }

/-! ## The invariant -/

namespace Program

variable (H : Host κ σ R) (s : Program κ σ)

/-- What `Initialize` establishes and every later step keeps: an object
carries the id of its class unless it was built too early, and a userdata
pushed for a live object holds the pointer of the object's class. -/
structure Initialised (sys : MetaSystem κ) (o : Int) : Prop where
  registry : ∃ ord tops, Registry R sys ord tops
  ids : ∀ x ∈ s.live, s.ids x.pObject
    = if x.early = true ∧ x.pObject ≠ o then -1 else sys.metaClassIdOf x.type
  handles : ∀ u a, s.handle u = some a → u < (H.api.view s.lua).userdataCount
    ∧ ∃ x ∈ s.live, x.pObject = a ∧ x.Known R o
      ∧ (H.api.view s.lua).block u = H.lay.part a x.type

/-- The invariant of a run. -/
structure Sound : Prop where
  unique : (s.live.map (·.pObject)).Nodup
  placed : ∀ x ∈ s.live, x.type ∈ R.classes ∧ H.lay.IsObject x.type
    ∧ 0 < H.lay.part x.pObject x.type
  before : s.system = none →
    (∀ x ∈ s.live, x.early = true ∧ s.ids x.pObject = -1) ∧ ∀ u, s.handle u = none
  after : ∀ sys o, s.system = some (sys, o) → s.Initialised H sys o

variable {H s}

/-- One address, one object. -/
theorem Sound.eq_of_pObject (h : s.Sound H) {x y : Instance κ} (hx : x ∈ s.live)
    (hy : y ∈ s.live) (hxy : x.pObject = y.pObject) : x = y :=
  List.inj_on_of_nodup_map h.unique hx hy hxy

/-- **When a lookup is right**: the id of a live object leads to its class
exactly when the object is known. -/
theorem Sound.lookup_iff (h : s.Sound H) (hR : R.WellLinked) {sys : MetaSystem κ} {o : Int}
    (hsys : s.system = some (sys, o)) {x : Instance κ} (hx : x ∈ s.live) :
    (0 ≤ s.ids x.pObject ∧ s.ids x.pObject < kMaxClasses
        ∧ sys.getMetaClassById (s.ids x.pObject) = .ok (sys.self x.type))
      ↔ x.Known R o := by
  have hinit := h.after sys o hsys
  obtain ⟨ord, tops, hreg⟩ := hinit.registry
  obtain ⟨hcls, hobj, _⟩ := h.placed x hx
  rw [hinit.ids x hx, hreg.self_eq _ hcls]
  by_cases hearly : x.early = true ∧ x.pObject ≠ o
  · -- the id is -1, which is no index
    rw [if_pos hearly]
    have hnot : ¬ x.Known R o := by
      intro hknown
      rcases hknown.2 with hlate | hsystem
      · simp [hlate] at hearly
      · exact hearly.2 hsystem
    simp [hnot]
  · rw [if_neg hearly]
    have htime : x.early = false ∨ x.pObject = o := by
      by_cases he : x.early = true
      · exact .inr (by_contra fun hne => hearly ⟨he, hne⟩)
      · exact .inl (by simpa using he)
    have hlook := hreg.getMetaClassById_iff hR hcls (Registry.ne_void hobj)
    constructor
    · intro hvalid
      exact ⟨hlook.mp hvalid.2.2, htime⟩
    · intro hknown
      have hrange := hreg.id_range hR (hreg.listed_sub _ hknown.1)
      rw [hreg.metaClassIdOf hcls] at hlook ⊢
      exact ⟨hrange.1, hrange.2, hlook.mpr hknown.1⟩

/-! ## Steps -/

theorem Sound.start (hlive : s.live = []) (hsys : s.system = none)
    (hhandle : ∀ u, s.handle u = none) : s.Sound H := by
  constructor
  case unique => simp [hlive]
  case placed => simp [hlive]
  case before => exact fun _ => ⟨by simp [hlive], hhandle⟩
  case after =>
    intro sys o h
    rw [hsys] at h
    cases h

/-- A constructor runs. -/
theorem Sound.construct (h : s.Sound H) {D : κ} {o : Int} (hD : D ∈ R.classes)
    (hDo : H.lay.IsObject D) (hpos : 0 < H.lay.part o D) (hfresh : ∀ x ∈ s.live, x.pObject ≠ o) :
    (s.built R D o).Sound H := by
  have hkeep : ∀ x ∈ s.live, update s.ids o (s.metaClassId R D) x.pObject = s.ids x.pObject :=
    fun x hx => update_of_ne (hfresh x hx) _ _
  constructor
  case unique =>
    refine List.nodup_cons.mpr ⟨?_, h.unique⟩
    intro hmem
    obtain ⟨x, hx, hxo⟩ := List.mem_map.mp hmem
    exact hfresh x hx hxo
  case placed =>
    intro x hx
    rcases List.mem_cons.mp hx with rfl | hx
    · exact ⟨hD, hDo, hpos⟩
    · exact h.placed x hx
  case before =>
    intro hnone
    obtain ⟨hlive, hhandle⟩ := h.before hnone
    refine ⟨?_, hhandle⟩
    intro x hx
    rcases List.mem_cons.mp hx with rfl | hx
    · -- the static metaclass has no id yet
      refine ⟨by simp [show s.system = none from hnone], ?_⟩
      obtain ⟨n, k, hstatic⟩ := statics_fresh (R := R) D
      show update s.ids o (s.metaClassId R D) o = -1
      rw [update_self, metaClassId, show s.system = none from hnone]
      show (R.statics.obj (.original D)).globalId = -1
      rw [hstatic]
    · refine ⟨(hlive x hx).1, ?_⟩
      rw [← (hlive x hx).2]
      exact hkeep x hx
  case after =>
    intro sys so hsys
    have hinit := h.after sys so hsys
    constructor
    case registry => exact hinit.registry
    case ids =>
      intro x hx
      rcases List.mem_cons.mp hx with rfl | hx
      · show update s.ids o (s.metaClassId R D) o = _
        rw [update_self, metaClassId, show s.system = some (sys, so) from hsys]
        simp
      · rw [← hinit.ids x hx]
        exact hkeep x hx
    case handles =>
      intro u a hu
      obtain ⟨hcount, x, hx, hrest⟩ := hinit.handles u a hu
      exact ⟨hcount, x, List.mem_cons_of_mem _ hx, hrest⟩

/-- A destructor runs. -/
theorem Sound.destroy (h : s.Sound H) (o : Int) : (s.destroyed o).Sound H := by
  have hsub : ∀ x ∈ s.live.filter fun x => x.pObject ≠ o, x ∈ s.live :=
    fun x hx => (List.mem_filter.mp hx).1
  constructor
  case unique => exact h.unique.sublist (List.filter_sublist.map _)
  case placed => exact fun x hx => h.placed x (hsub x hx)
  case before =>
    intro hnone
    obtain ⟨hlive, hhandle⟩ := h.before hnone
    exact ⟨fun x hx => hlive x (hsub x hx), fun u => by simp [destroyed, hhandle u]⟩
  case after =>
    intro sys so hsys
    have hinit := h.after sys so hsys
    constructor
    case registry => exact hinit.registry
    case ids => exact fun x hx => hinit.ids x (hsub x hx)
    case handles =>
      intro u a hu
      change (if s.handle u = some o then none else s.handle u) = some a at hu
      have hne : s.handle u ≠ some o := by
        intro he
        simp [he] at hu
      rw [if_neg hne] at hu
      obtain ⟨hcount, x, hx, hxa, hrest⟩ := hinit.handles u a hu
      refine ⟨hcount, x, List.mem_filter.mpr ⟨hx, ?_⟩, hxa, hrest⟩
      rw [hxa]
      simpa using fun he => hne (hu.trans (congrArg some he))

/-- `Initialize` runs: only the object it is called on gets its id. -/
theorem Sound.initializeSystem (h : s.Sound H) (hR : R.WellLinked) (hnone : s.system = none)
    {x : Instance κ} (hx : x ∈ s.live) (hxs : x.type = R.systemType)
    {walk : List (MetaPtr κ)} (hw : R.Walk walk) {fuel : Nat}
    (hfuel : R.classes.length ≤ fuel) {sys : MetaSystem κ}
    (hinit : Meta.initializeSystem R walk fuel = .ok sys) :
    (s.initialised sys x.pObject).Sound H := by
  obtain ⟨hlive, hhandle⟩ := h.before hnone
  obtain ⟨ord, tops, hreg⟩ := initializeSystem_registry hR hw hfuel hinit
  constructor
  case unique => exact h.unique
  case placed => exact h.placed
  case before =>
    intro hsys
    cases hsys
  case after =>
    intro sys' o hsys
    cases hsys
    constructor
    case registry => exact ⟨ord, tops, hreg⟩
    case ids =>
      intro y hy
      show update s.ids x.pObject sys.metaClassId y.pObject = _
      by_cases hyx : y.pObject = x.pObject
      · have heq := h.eq_of_pObject hy hx hyx
        subst heq
        rw [update_self, if_neg (by simp), hreg.metaClassId, hxs,
          hreg.metaClassIdOf R.system_mem_classes]
      · rw [update_of_ne hyx, if_pos ⟨(hlive y hy).1, hyx⟩]
        exact (hlive y hy).2
    case handles =>
      intro u a hu
      have hno := (hhandle u).symm.trans hu
      cases hno

/-- The rest of the program runs. -/
theorem Sound.other (h : s.Sound H) {ids : ObjectIds} {lua : σ}
    (hids : ∀ x ∈ s.live, ids x.pObject = s.ids x.pObject)
    (hblock : ∀ u a, s.handle u = some a → u < (H.api.view lua).userdataCount
      ∧ (H.api.view lua).block u = (H.api.view s.lua).block u) :
    ({ s with ids := ids, lua := lua } : Program κ σ).Sound H := by
  constructor
  case unique => exact h.unique
  case placed => exact h.placed
  case before =>
    intro hnone
    obtain ⟨hlive, hhandle⟩ := h.before hnone
    exact ⟨fun x hx => ⟨(hlive x hx).1, (hids x hx).trans (hlive x hx).2⟩, hhandle⟩
  case after =>
    intro sys o hsys
    have hinit := h.after sys o hsys
    constructor
    case registry => exact hinit.registry
    case ids => exact fun x hx => (hids x hx).trans (hinit.ids x hx)
    case handles =>
      intro u a hu
      obtain ⟨_, x, hx, hxa, hknown, hval⟩ := hinit.handles u a hu
      exact ⟨(hblock u a hu).1, x, hx, hxa, hknown, (hblock u a hu).2.trans hval⟩

/-- `WriteType` runs on a pointer with an `Object`: the new userdata holds
the pointer of the object's class. -/
theorem Sound.pushed (h : s.Sound H) (hR : R.WellLinked) {sys : MetaSystem κ} {o : Int}
    (hsys : s.system = some (sys, o)) {p : Pointer κ} {x : Instance κ} (hx : x ∈ s.live)
    (hp : p.To H.lay x) (hpo : H.lay.IsObject p.static) (hknown : x.Known R o)
    {a : Int} (ha : writtenPointer sys H.lay s.ids (sys.self p.static) p.address = .ok a) :
    a = H.lay.part x.pObject x.type := by
  obtain ⟨ord, tops, hreg⟩ := (h.after sys o hsys).registry
  obtain ⟨_, hxo, hpos⟩ := h.placed x hx
  obtain ⟨hcls, habove, _, haddr⟩ := hp
  have hlive : 0 < H.lay.part x.pObject p.static := by
    rcases habove with he | hanc
    · rwa [he]
    · exact hpos.trans_le (Layout.part_le_of_ancestor hanc hpo x.pObject).2
  have hid : s.ids x.pObject = sys.metaClassIdOf x.type := by
    rw [(h.after sys o hsys).ids x hx, if_neg]
    rintro ⟨hearly, hne⟩
    rcases hknown.2 with hlate | hsystem
    · rw [hearly] at hlate
      cases hlate
    · exact hne hsystem
  rw [hreg.self_eq _ hcls, haddr hpo,
    hreg.writtenPointer_eq hR hknown.1 hpo hxo hlive hid] at ha
  exact (Except.ok.inj ha).symm

/-- Lua keeps the pointers it holds and may get new ones. -/
theorem Sound.ofLua (h : s.Sound H) {lua : σ}
    (hcount : (H.api.view s.lua).userdataCount ≤ (H.api.view lua).userdataCount)
    (hblock : ∀ u < (H.api.view s.lua).userdataCount,
      (H.api.view lua).block u = (H.api.view s.lua).block u) :
    ({ s with lua := lua } : Program κ σ).Sound H := by
  refine h.other (fun _ _ => rfl) fun u a hu => ?_
  cases hsys : s.system with
  | none =>
      cases ((h.before hsys).2 u).symm.trans hu
  | some so =>
      have hlt := ((h.after so.1 so.2 hsys).handles u a hu).1
      exact ⟨hlt.trans_le hcount, hblock u hlt⟩

/-- One userdata more, for a known object. -/
theorem Sound.ofHandle (h : s.Sound H) {u : Nat} {x : Instance κ} (hx : x ∈ s.live)
    (hnew : ∀ sys o, s.system = some (sys, o) → u < (H.api.view s.lua).userdataCount
      ∧ x.Known R o ∧ (H.api.view s.lua).block u = H.lay.part x.pObject x.type)
    (hsys : s.system ≠ none) :
    ({ s with handle := update s.handle u (some x.pObject) } : Program κ σ).Sound H := by
  constructor
  case unique => exact h.unique
  case placed => exact h.placed
  case before => exact fun hnone => absurd hnone hsys
  case after =>
    intro sys o hso
    have hinit := h.after sys o hso
    constructor
    case registry => exact hinit.registry
    case ids => exact hinit.ids
    case handles =>
      intro u' a hu'
      change update s.handle u (some x.pObject) u' = some a at hu'
      by_cases he : u' = u
      · subst he
        rw [update_self] at hu'
        cases hu'
        obtain ⟨hcount, hknown, hblock⟩ := hnew sys o hso
        exact ⟨hcount, x, hx, rfl, hknown, hblock⟩
      · rw [update_of_ne he] at hu'
        exact hinit.handles u' a hu'

/-- `WriteType` runs. -/
theorem Sound.write (h : s.Sound H) (hR : R.WellLinked) {sys : MetaSystem κ} {o : Int}
    (hsys : s.system = some (sys, o)) {p : Pointer κ} {x : Instance κ} (hx : x ∈ s.live)
    (hp : p.To H.lay x) (hset : (Operation.writeType p).Settable H s)
    (hmeets : ¬ H.lay.IsObject p.static ∨ x.Known R o) {lua : σ}
    (hrun : writeType H.api sys H.lay s.ids (sys.self p.static) p.address s.lua = .ok lua) :
    ({ s with
        lua := lua
        handle := (Operation.writeType p).handleAfter H s x } : Program κ σ).Sound H := by
  obtain ⟨ord, tops, hreg⟩ := (h.after sys o hsys).registry
  have hname : (sys.obj (sys.self p.static)).name = R.nameOf p.static := by
    rw [hreg.self_eq _ hp.1, hreg.name_eq]
  change (∃ t, _ = _) ∨ _ = _ at hset
  rw [← hname] at hset
  obtain ⟨a, ha, hview⟩ := writeType_view H.api sys H.lay s.ids hp.2.2.1 hset hrun
  have hblock := congrArg State.block hview
  have hcount := congrArg State.userdataCount hview
  simp only at hblock hcount
  -- first the old userdata, then the new one
  have hold : ({ s with lua := lua } : Program κ σ).Sound H := by
    refine h.ofLua (by omega) fun u hu => ?_
    rw [hblock, update_of_ne (by omega)]
  by_cases hpo : H.lay.IsObject p.static
  · have hknown : x.Known R o := hmeets.resolve_left fun hno => hno hpo
    have hval := h.pushed hR hsys hx hp hpo hknown ha
    have hafter : (Operation.writeType p).handleAfter H s x
        = update s.handle (H.api.view s.lua).userdataCount (some x.pObject) := if_pos hpo
    rw [hafter]
    refine hold.ofHandle hx ?_ (by simp [hsys])
    intro sys' o' hsys'
    cases hsys.symm.trans hsys'
    refine ⟨by rw [hcount]; omega, hknown, ?_⟩
    rw [hblock, update_self, hval]
  · have hafter : (Operation.writeType p).handleAfter H s x = s.handle := if_neg hpo
    rw [hafter]
    exact hold

/-- An operation that meets its condition runs. -/
theorem Sound.perform (h : s.Sound H) (hR : R.WellLinked) {sys : MetaSystem κ} {o : Int}
    (hsys : s.system = some (sys, o)) {op : Operation κ} {x : Instance κ} (hon : op.On H s x)
    (hset : op.Settable H s) (hmeets : op.Meets H sys o s x) {lua : σ}
    (hrun : op.perform H sys s.ids s.lua = .ok lua) :
    ({ s with lua := lua, handle := op.handleAfter H s x } : Program κ σ).Sound H := by
  cases op with
  | dynamicCast T p =>
      obtain ⟨_, _, rfl⟩ := map_ok hrun
      exact h
  | writeType p => exact h.write hR hsys hon.1 hon.2 hset hmeets hrun
  | luaCast T args =>
      obtain ⟨⟨lua', err⟩, hcast, rfl⟩ := map_ok hrun
      have hview := metaLuaCast_view H.api sys H.lay s.ids hcast
      rw [H.api.enter_eq] at hview
      have hsame : (H.api.view lua').block = (H.api.view s.lua).block
          ∧ (H.api.view lua').userdataCount = (H.api.view s.lua).userdataCount := by
        rw [hview]
        split
        · exact ⟨rfl, rfl⟩
        · exact ⟨rfl, rfl⟩
      exact h.ofLua hsame.2.ge fun u _ => congrFun hsame.1 u

/-- **The invariant holds along every run** whose operations meet the
condition. -/
theorem sound_of_reaches (hR : R.WellLinked) (h : Reaches H (Operation.Meets H) s) :
    s.Sound H := by
  induction h with
  | start hlive hsys hhandle => exact .start hlive hsys hhandle
  | construct _ hD hDo hpos hfresh ih => exact ih.construct hD hDo hpos hfresh
  | destroy _ _ ih => exact ih.destroy _
  | initializeSystem _ hnone hx hxs hw hfuel hinit ih =>
      exact ih.initializeSystem hR hnone hx hxs hw hfuel hinit
  | other _ hids hblock ih => exact ih.other hids hblock
  | perform _ hsys hon hset hmeets hrun ih => exact ih.perform hR hsys hon hset hmeets hrun

/-! ## The lookups of each operation -/

/-- A right lookup reads the object, and the object is known. -/
theorem Sound.finds_iff (h : s.Sound H) (hR : R.WellLinked) {sys : MetaSystem κ} {o : Int}
    (hsys : s.system = some (sys, o)) {x : Instance κ} (hx : x ∈ s.live) {a : Int} :
    s.Finds sys x a ↔ a = x.pObject ∧ x.Known R o := by
  rw [Finds]
  refine and_congr_right fun ha => ?_
  rw [ha]
  exact h.lookup_iff hR hsys hx

/-- The `Object` of a pointer to a live object. -/
theorem Sound.upcast_eq (h : s.Sound H) {p : Pointer κ} {x : Instance κ} (hx : x ∈ s.live)
    (hp : p.To H.lay x) (hpo : H.lay.IsObject p.static) :
    x.pObject ≠ 0 ∧ H.lay.upcast p.static p.address = x.pObject := by
  obtain ⟨_, _, hpos⟩ := h.placed x hx
  have ho := Layout.object_pos hpos
  obtain ⟨_, _, hne, haddr⟩ := hp
  rw [haddr hpo] at hne ⊢
  exact ⟨by omega, Layout.upcast_part hpo hne⟩

/-- `DynamicCast` looks the object up, once, unless it has nothing to do. -/
theorem Sound.cast_iff (h : s.Sound H) (hR : R.WellLinked) {sys : MetaSystem κ} {o : Int}
    (hsys : s.system = some (sys, o)) {T : κ} (hT : T ∈ R.classes) {p : Pointer κ}
    {x : Instance κ} (hx : x ∈ s.live) (hp : p.To H.lay x) :
    (∀ a ∈ (castQuery sys H.lay (sys.self T) p.address (sys.self p.static)).asked
        (sys.classAt s.ids), s.Finds sys x a)
      ↔ T = p.static ∨ ¬ H.lay.IsObject p.static ∨ x.Known R o := by
  obtain ⟨ord, tops, hreg⟩ := (h.after sys o hsys).registry
  rw [asked_castQuery, hreg.self_eq T hT, hreg.self_eq _ hp.1, castStart]
  by_cases hTS : T = p.static
  · rw [if_pos (congrArg _ hTS)]
    simp [hTS]
  · have hne : (MetaPtr.copy T) ≠ .copy p.static := by simpa using hTS
    rw [if_neg hne, hreg.isClass hp.1]
    by_cases hpo : H.lay.IsObject p.static
    · obtain ⟨hnull, hup⟩ := h.upcast_eq hx hp hpo
      simp [MetaPtr.type, hup, hnull, h.finds_iff hR hsys hx, hTS, hpo]
    · simp [MetaPtr.type, Layout.upcast_of_not_isObject hpo, hpo]

/-- `WriteType` looks the object up, once, if the pointer has an
`Object`. -/
theorem Sound.write_iff (h : s.Sound H) (hR : R.WellLinked) {sys : MetaSystem κ} {o : Int}
    (hsys : s.system = some (sys, o)) {p : Pointer κ} {x : Instance κ} (hx : x ∈ s.live)
    (hp : p.To H.lay x) :
    (∀ a ∈ (writeQuery H.api sys H.lay (sys.self p.static) p.address s.lua).asked
        (sys.classAt s.ids), s.Finds sys x a)
      ↔ ¬ H.lay.IsObject p.static ∨ x.Known R o := by
  obtain ⟨ord, tops, hreg⟩ := (h.after sys o hsys).registry
  rw [asked_writeQuery _ _ _ _ _ hp.2.2.1, hreg.self_eq _ hp.1]
  by_cases hpo : H.lay.IsObject p.static
  · obtain ⟨hnull, hup⟩ := h.upcast_eq hx hp hpo
    simp [baseObject, MetaPtr.type, hup, hnull, h.finds_iff hR hsys hx, hpo]
  · simp [baseObject, MetaPtr.type, Layout.upcast_of_not_isObject hpo, hpo]

/-- The two lookups of `MetaLuaCast` on a userdata that holds the pointer of
the object's class: both read the object exactly when the label, if it
leads to an `Object` at all, has it in the same place. -/
theorem Sound.label_iff (h : s.Sound H) (hR : R.WellLinked) {sys : MetaSystem κ} {o : Int}
    (hsys : s.system = some (sys, o)) {x : Instance κ} (hx : x ∈ s.live)
    (hknown : x.Known R o) (m : MetaPtr κ) :
    ((∀ a ∈ (castQuery sys H.lay (sys.self H.objectType)
          (H.lay.part x.pObject x.type) m).asked (sys.classAt s.ids), s.Finds sys x a)
        ∧ ∀ result, (castQuery sys H.lay (sys.self H.objectType)
            (H.lay.part x.pObject x.type) m).run (sys.classAt s.ids) = .ok result →
          H.lay.upcast (sys.self H.objectType).type result ≠ 0 →
          s.Finds sys x (H.lay.upcast (sys.self H.objectType).type result))
      ↔ ((sys.obj m).isClass = true → ∀ off, H.lay.objectOffset m.type = some off →
          H.lay.objectOffset x.type = some off) := by
  obtain ⟨ord, tops, hreg⟩ := (h.after sys o hsys).registry
  obtain ⟨_, hxo, hpos⟩ := h.placed x hx
  obtain ⟨offD, hD⟩ := Option.isSome_iff_exists.mp hxo
  have hpart : H.lay.part x.pObject x.type = x.pObject - offD := by
    simp [Layout.part, hD]
  have hobject : ∀ a, H.lay.upcast H.objectType a = a := by
    intro a
    simp only [Layout.upcast, H.object_offset]
    split
    · rename_i ha
      exact ha.symm
    · simp
  rw [asked_castQuery, run_castQuery, hreg.self_eq _ H.object_mem, dynamicCast, castStart]
  simp only [h.finds_iff hR hsys hx, hknown, and_true, hD, Option.some.injEq,
    MetaPtr.type_copy, hobject]
  by_cases hm : MetaPtr.copy H.objectType = m
  · -- the pointer itself is taken for the object
    subst hm
    simp only [if_true, List.not_mem_nil, false_implies, implies_true, true_and,
      Except.ok.injEq, forall_eq', hreg.isClass H.object_mem, H.object_offset,
      MetaPtr.type_copy, Option.some.injEq, forall_const]
    omega
  · rw [if_neg hm]
    cases hcls : (sys.obj m).isClass with
    | false => simp
    | true =>
        cases hoff : H.lay.objectOffset m.type with
        | none => simp [Layout.upcast, hoff]
        | some off =>
            have hup : H.lay.upcast m.type (H.lay.part x.pObject x.type)
                = x.pObject - offD + off := by
              have hne : ¬ H.lay.part x.pObject x.type = 0 := by omega
              simp only [Layout.upcast, hoff, hne, if_false]
              omega
            have hnull : ¬ x.pObject - offD + off = 0 := by omega
            simp only [hup, hnull, if_false, List.mem_singleton, forall_eq,
              Bool.true_eq_false, Option.some.injEq, forall_const, forall_eq']
            constructor
            · intro hfinds
              omega
            · rintro rfl
              have hback : x.pObject - (offD : Int) + offD = x.pObject := by omega
              rw [hback]
              refine ⟨rfl, ?_⟩
              intro result hcast hne
              obtain ⟨pObjectClass, _, hret⟩ := bind_ok hcast
              have hval := Except.ok.inj hret
              have hdown : H.lay.downcast H.objectType x.pObject = x.pObject := by
                have hnull' : ¬ x.pObject = 0 := by omega
                simp [Layout.downcast, H.object_offset, hnull']
              rcases castFinish_cases sys H.lay (.copy H.objectType) pObjectClass x.pObject
                with hstep | hnone
              · rw [← hval, hstep]
                exact hdown
              · omega

/-- `MetaLuaCast` on a userdata pushed for the object. -/
theorem Sound.luaCast_iff (h : s.Sound H) (hR : R.WellLinked) {sys : MetaSystem κ} {o : Int}
    (hsys : s.system = some (sys, o)) {T : κ} {args : List (LuaValue κ)} {x : Instance κ}
    (hx : x ∈ s.live) {u : Nat} (hu : args[0]? = some (.userdata u))
    (hhandle : s.handle u = some x.pObject) :
    (∀ a ∈ (luaCastQuery H.api sys H.lay H.objectType (sys.self T)
        (H.api.enter s.lua args)).asked (sys.classAt s.ids), s.Finds sys x a)
      ↔ ∀ m off, labelOf (H.api.view s.lua) u = some m →
        acceptsClass sys (sys.self H.objectType) m = true → (sys.obj m).isClass = true →
        H.lay.objectOffset m.type = some off → H.lay.objectOffset x.type = some off := by
  obtain ⟨_, y, hy, hyx, hknown, hblock⟩ := (h.after sys o hsys).handles u _ hhandle
  have heq := h.eq_of_pObject hy hx hyx
  subst heq
  have hview := H.api.enter_eq s.lua args
  have hget : (H.api.view (H.api.enter s.lua args)).get? 1 = some (.userdata u) :=
    (State.get?_args _ (congrArg State.stack hview) 0).trans hu
  have hlabel : labelOf (H.api.view (H.api.enter s.lua args)) u
      = labelOf (H.api.view s.lua) u := by
    rw [hview]
    rfl
  have hval : (H.api.view (H.api.enter s.lua args)).block u = H.lay.part y.pObject y.type := by
    rw [hview]
    exact hblock
  cases hm : labelOf (H.api.view s.lua) u with
  | none =>
      rw [asked_luaCastQuery_unlabelled _ _ _ _ _ hget (hlabel.trans hm)]
      simp
  | some m =>
      rw [asked_luaCastQuery_labelled _ _ _ _ _ hget (hlabel.trans hm), hval,
        h.label_iff hR hsys hx hknown m]
      constructor
      · intro hall m' off hm' hacc hcls hoff
        cases hm'
        exact hall hacc hcls off hoff
      · intro hall hacc hcls off hoff
        exact hall m off rfl hacc hcls hoff

end Program

/-- **Where the class ids of a run are valid.** In every state that a
program reaches by operations meeting the condition, with objects built and
destroyed before and after `Initialize` in any order, the lookups of the
next operation on a live object are all right exactly when it meets the
condition too. -/
theorem lookupsValid_iff (hR : R.WellLinked) (H : Host κ σ R) {s : Program κ σ}
    (hs : s.Reaches H (Operation.Meets H)) {sys : MetaSystem κ} {o : Int}
    (hsys : s.system = some (sys, o)) {op : Operation κ} {x : Instance κ}
    (hon : op.On H s x) : op.LookupsValid H sys s x ↔ op.Meets H sys o s x := by
  have hsound := Program.sound_of_reaches hR hs
  cases op with
  | dynamicCast T p =>
      obtain ⟨hx, hT, hp⟩ := hon
      rw [Operation.LookupsValid, Operation.query, Query.asked_map]
      exact hsound.cast_iff hR hsys hT hx hp
  | writeType p =>
      obtain ⟨hx, hp⟩ := hon
      exact hsound.write_iff hR hsys hx hp
  | luaCast T args =>
      obtain ⟨hx, _, u, hu, hhandle⟩ := hon
      rw [Operation.LookupsValid, Operation.query, Query.asked_map,
        hsound.luaCast_iff hR hsys hx hu hhandle]
      constructor
      · intro hall u' m off hu' hm hacc hcls hoff
        cases hu.symm.trans hu'
        exact hall m off hm hacc hcls hoff
      · intro hall m off hm hacc hcls hoff
        exact hall u m off hu hm hacc hcls hoff

/-! ## At the sample -/

def sampleHost : Host SampleType (LuaState SampleType) sampleProgram where
  api := Api.reference
  lay := sampleLayout
  objectType := .object
  object_mem := by decide
  object_offset := rfl

/-- Nothing has been built yet. -/
def sampleStart : Program SampleType (LuaState SampleType) where
  ids := fun _ => 0
  live := []
  system := none
  lua := State.empty
  handle := fun _ => none

theorem sampleStart_reaches
    (ok : MetaSystem SampleType → Int → Program SampleType (LuaState SampleType) →
      Operation SampleType → Instance SampleType → Prop) :
    (sampleStart.built sampleProgram .metaSystem 64).Reaches sampleHost ok := by
  have hstart : sampleStart.Reaches sampleHost ok := .start rfl rfl fun _ => rfl
  refine .construct hstart (by decide) (by decide) (by decide) ?_
  intro x hx
  cases hx

/-- A `derived` built after `Initialize` at 4104, narrowed from its `base`
part. -/
theorem lookupsValid_iff_sample :
    ∃ s sys, Program.Reaches sampleHost (Operation.Meets sampleHost) s
      ∧ s.system = some (sys, 64)
      ∧ (Operation.dynamicCast .derived ⟨.base, 4096⟩).LookupsValid sampleHost sys s
          ⟨.derived, 4104, false⟩ := by
  obtain ⟨sys, hsys⟩ := initializeSystem_sample
  let s₁ := sampleStart.built sampleProgram .metaSystem 64
  let s₂ := s₁.initialised sys 64
  let s₃ := s₂.built sampleProgram .derived 4104
  have h₁ : s₁.Reaches sampleHost (Operation.Meets sampleHost) := sampleStart_reaches _
  have h₂ : s₂.Reaches sampleHost (Operation.Meets sampleHost) :=
    .initializeSystem h₁ rfl (.head _) rfl sampleWalk_walk (by decide) hsys
  have h₃ : s₃.Reaches sampleHost (Operation.Meets sampleHost) := by
    refine .construct h₂ (by decide) (by decide) (by decide) ?_
    intro x hx
    rw [List.mem_singleton.mp hx]
    decide
  have hx : (⟨.derived, 4104, false⟩ : Instance SampleType) ∈ s₃.live := .head _
  have hp : (⟨.base, 4096⟩ : Pointer SampleType).To sampleLayout ⟨.derived, 4104, false⟩ :=
    ⟨by decide, .inr (.parent (by decide)), by decide, fun _ => by decide⟩
  have hknown : (⟨.derived, 4104, false⟩ : Instance SampleType).Known sampleProgram 64 :=
    ⟨by decide, .inl rfl⟩
  have h : (Operation.dynamicCast .derived ⟨.base, 4096⟩).LookupsValid sampleHost sys s₃
      ⟨.derived, 4104, false⟩ ↔ _ :=
    lookupsValid_iff sampleProgram_wellLinked sampleHost h₃ rfl ⟨hx, by decide, hp⟩
  exact ⟨s₃, sys, h₃, rfl, h.mpr (.inr (.inr hknown))⟩

/-- A `pod` built at 4096 before `Initialize` keeps the id -1. Casting it
afterwards reads `m_classes[-1]`. -/
theorem early_pod_sample :
    ∃ s sys, Program.Reaches sampleHost (fun _ _ _ _ _ => True) s
      ∧ s.system = some (sys, 64)
      ∧ (Operation.dynamicCast .sprite ⟨.pod, 4096⟩).On sampleHost s ⟨.pod, 4096, true⟩
      ∧ s.ids 4096 = -1
      ∧ (Operation.dynamicCast .sprite ⟨.pod, 4096⟩).perform sampleHost sys s.ids s.lua
          = .error .outOfBounds
      ∧ ¬ (Operation.dynamicCast .sprite ⟨.pod, 4096⟩).LookupsValid sampleHost sys s
          ⟨.pod, 4096, true⟩ := by
  obtain ⟨sys, hsys, ord, tops, hreg⟩ := sampleProgram_registry
  let s₁ := sampleStart.built sampleProgram .metaSystem 64
  let s₂ := s₁.built sampleProgram .pod 4096
  let s₃ := s₂.initialised sys 64
  have h₁ : s₁.Reaches sampleHost fun _ _ _ _ _ => True := sampleStart_reaches _
  have h₂ : s₂.Reaches sampleHost fun _ _ _ _ _ => True := by
    refine .construct h₁ (by decide) (by decide) (by decide) ?_
    intro x hx
    rw [List.mem_singleton.mp hx]
    decide
  have hsystem : (⟨.metaSystem, 64, true⟩ : Instance SampleType) ∈ s₂.live := .tail _ (.head _)
  have h₃ : s₃.Reaches sampleHost fun _ _ _ _ _ => True :=
    .initializeSystem h₂ rfl hsystem rfl sampleWalk_walk sampleProgram_fuel hsys
  have hid : s₃.ids 4096 = -1 := by
    show (update (update s₁.ids 4096 (-1)) 64 sys.metaClassId : ObjectIds) 4096 = -1
    rw [update_of_ne (by decide), update_self]
  have hp : (⟨.pod, 4096⟩ : Pointer SampleType).To sampleLayout ⟨.pod, 4096, true⟩ :=
    ⟨by decide, .inl rfl, by decide, fun _ => by decide⟩
  -- the cast has to look the class of the object up
  have hstart : castStart sys sampleLayout (.copy .sprite) 4096 (.copy .pod)
      = .lookup 4096 := by
    have hne : (MetaPtr.copy SampleType.sprite) ≠ .copy .pod := by decide
    rw [castStart, if_neg hne, hreg.isClass (by decide)]
    rfl
  have hlookup : sys.getMetaClassById (s₃.ids 4096) = .error .outOfBounds := by
    rw [hid]
    rfl
  refine ⟨s₃, sys, h₃, rfl, ⟨.head _, by decide, hp⟩, hid, ?_, ?_⟩
  · show Except.map _ (dynamicCast sys sampleLayout s₃.ids (sys.self .sprite) 4096
      (sys.self .pod)) = _
    rw [hreg.self_eq .sprite (by decide), hreg.self_eq .pod (by decide)]
    simp only [dynamicCast, hstart, hlookup]
    rfl
  · intro hvalid
    have hasked := hvalid 4096
    rw [Operation.query, Query.asked_map, hreg.self_eq .sprite (by decide),
      hreg.self_eq .pod (by decide)] at hasked
    have hmem : (4096 : Int) ∈ (castQuery sys sampleLayout (.copy .sprite) 4096
        (.copy .pod)).asked (sys.classAt s₃.ids) := by
      rw [asked_castQuery, hstart]
      exact List.mem_singleton.mpr rfl
    have hrange := (hasked hmem).2.1
    rw [hid] at hrange
    omega

end SkyEngine.Meta
