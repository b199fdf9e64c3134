import SkyEngine.Meta.Objects

/-!
# Meta — Descriptors

What the field chains of `MetaObject` stand for: every object owns the list
of the nodes attached to it, newest first. Each constructor and setter does
to these lists what its `View` twin says, so `GetMetaData` answers from the
list of its object and from nothing else. How the objects are linked to each
other does not matter to them.
-/

namespace SkyEngine.MetaObjects

variable {τ : Type}

/-! ## The lists -/

/-- A node: its texts and the nodes behind it. -/
structure Entry where
  key : String
  value : Option String
  below : List Nat
  deriving DecidableEq

/-- An object: its name and the nodes attached to it. -/
structure Item (τ : Type) where
  kind : τ
  name : String
  attached : List Nat
  deriving DecidableEq

structure View (τ : Type) where
  entries : List Entry := []
  items : List (Item τ) := []

namespace View

/-- A node in front of the nodes behind it. -/
def front (below : List (List Nat)) : Option Nat → List Nat
  | none => []
  | some p => p :: (below[p]?).getD []

/-- What a constructor or setter does to the lists. -/
def call (v : View τ) : Call τ → Except Fault (View τ)
  | .metaObject kind name => .ok { v with
      items := v.items ++ [{ kind := kind, name := name, attached := [] }] }
  | .metaObjectNolist kind name => .ok { v with
      items := v.items ++ [{ kind := kind, name := name, attached := [] }] }
  | .copyMetaObject src =>
      match v.items[src]? with
      | none => .error .nullDeref
      | some o => .ok { v with items := v.items ++ [o] }
  | .metaData target key value =>
      match v.items[target]? with
      | none => .error .nullDeref
      | some o => .ok { v with
          entries := v.entries ++ [{ key := key, value := value, below := o.attached }]
          items := v.items.set target { o with attached := v.entries.length :: o.attached } }
  | .copyMetaData src =>
      match v.entries[src]? with
      | none => .error .nullDeref
      | some d => .ok { v with entries := v.entries ++ [d] }
  | .setKey node key =>
      match v.entries[node]? with
      | none => .error .nullDeref
      | some d => .ok { v with entries := v.entries.set node { d with key := key } }
  | .setValue node value =>
      match v.entries[node]? with
      | none => .error .nullDeref
      | some d => .ok { v with entries := v.entries.set node { d with value := value } }
  | .setPrev object p =>
      match v.items[object]? with
      | none => .error .nullDeref
      | some _ => if p.all (· < v.items.length) then .ok v else .error .badPointer
  | .setName object name =>
      match v.items[object]? with
      | none => .error .nullDeref
      | some o => .ok { v with items := v.items.set object { o with name := name } }
  | .setFields object p =>
      match v.items[object]? with
      | none => .error .nullDeref
      | some o =>
          if p.all (· < v.entries.length) then
            let attached := front (v.entries.map (·.below)) p
            .ok { v with items := v.items.set object { o with attached := attached } }
          else .error .badPointer
  | .setList _ p => if p.all (· < v.items.length) then .ok v else .error .badPointer

def run (v : View τ) (cs : List (Call τ)) : Except Fault (View τ) :=
  cs.foldlM View.call v

/-- The value of the newest of these nodes that carries the key. -/
def newest (entries : List Entry) (key : String) (nodes : List Nat) : Option String :=
  ((nodes.filterMap (entries[·]?)).find? (·.key == key)).bind (·.value)

def getMetaData (v : View τ) (object : Nat) (key : String) : Except Fault (Option String) :=
  match v.items[object]? with
  | none => .error .nullDeref
  | some o => .ok (newest v.entries key o.attached)

end View

/-! ## Reading the lists off the pointers -/

namespace Store

def entryOf (s : Store τ) (d : MetaData) : Entry :=
  { key := d.key, value := d.value, below := Chain.chain s.dataLinks d.prev }

def itemOf (s : Store τ) (o : MetaObject τ) : Item τ :=
  { kind := o.kind, name := o.name, attached := Chain.chain s.dataLinks o.fields }

def view (s : Store τ) : View τ where
  entries := s.data.map s.entryOf
  items := s.objects.map s.itemOf

@[simp] theorem view_entries_length (s : Store τ) : s.view.entries.length = s.data.length :=
  List.length_map _

@[simp] theorem view_items_length (s : Store τ) : s.view.items.length = s.objects.length :=
  List.length_map _

@[simp] theorem length_dataLinks (s : Store τ) : s.dataLinks.length = s.data.length :=
  List.length_map _

@[simp] theorem length_objectLinks (s : Store τ) :
    s.objectLinks.length = s.objects.length :=
  List.length_map _

theorem view_entries_get {s : Store τ} {p : Nat} :
    s.view.entries[p]? = (s.data[p]?).map s.entryOf := List.getElem?_map

theorem view_items_get {s : Store τ} {p : Nat} :
    s.view.items[p]? = (s.objects[p]?).map s.itemOf := List.getElem?_map

theorem entryOf_congr {s s' : Store τ} (h : s'.dataLinks = s.dataLinks) :
    s'.entryOf = s.entryOf := by
  funext d
  simp only [entryOf, h]

theorem itemOf_congr {s s' : Store τ} (h : s'.dataLinks = s.dataLinks) :
    s'.itemOf = s.itemOf := by
  funext o
  simp only [itemOf, h]

/-- Rewriting a member without moving its pointer moves no pointer. -/
theorem map_set_self {α β : Type} (f : α → β) {l : List α} {p : Nat} {a b : α}
    (hp : l[p]? = some a) (hf : f b = f a) : (l.set p b).map f = l.map f := by
  have hlt := (List.getElem?_eq_some_iff.mp hp).1
  have hget := (List.getElem?_eq_some_iff.mp hp).2
  rw [List.map_set, hf, ← hget, ← List.getElem_map f]
  exact List.set_getElem_self (by simpa using hlt)

end Store

namespace Store.Sound

open Store

variable {s : Store τ}

/-- A pointer to a node leads to the node and what is behind it. -/
theorem front_entries (h : s.Sound) {p : Option Nat} (hp : Chain.Valid s.dataLinks p) :
    View.front (s.view.entries.map (·.below)) p = Chain.chain s.dataLinks p := by
  cases p with
  | none => simp [View.front]
  | some p =>
      have hlt : p < s.data.length := by simpa using hp p rfl
      have hlink : s.dataLinks[p]? = some s.data[p].prev := by
        simp [dataLinks, List.getElem?_eq_getElem hlt]
      rw [Chain.chain_some h.data_aged hlink]
      simp [View.front, view, List.getElem?_eq_getElem hlt, entryOf]

end Store.Sound

/-! ## Every call does to the lists what its twin does -/

namespace Store.Sound

variable {s : Store τ}

/-- A new node, attached to whatever `objects` say. -/
theorem entries_push (h : s.Sound) {d : MetaData} (hd : Chain.Valid s.dataLinks d.prev)
    (objects : List (MetaObject τ)) :
    ({ s with data := s.data ++ [d], objects := objects } : Store τ).view.entries
      = s.view.entries ++ [s.entryOf d] := by
  let s' : Store τ := { s with data := s.data ++ [d], objects := objects }
  have hlinks : s'.dataLinks = s.dataLinks ++ [d.prev] := by
    simp [s', Store.dataLinks]
  have hold : ∀ d' : MetaData, Chain.Valid s.dataLinks d'.prev →
      s'.entryOf d' = s.entryOf d' := by
    intro d' hd'
    simp only [Store.entryOf, hlinks, Chain.chain_push h.data_aged hd hd']
  show (s.data ++ [d]).map s'.entryOf = s.data.map s.entryOf ++ [s.entryOf d]
  rw [List.map_append, List.map_congr_left fun d' hd' => hold d' (h.entry_link hd')]
  simp [hold d hd]

theorem itemOf_push (h : s.Sound) {d : MetaData} (hd : Chain.Valid s.dataLinks d.prev)
    {o : MetaObject τ} (ho : Chain.Valid s.dataLinks o.fields)
    (objects : List (MetaObject τ)) :
    ({ s with data := s.data ++ [d], objects := objects } : Store τ).itemOf o = s.itemOf o := by
  have hfields : Chain.chain ((s.data ++ [d]).map (·.prev)) o.fields
      = Chain.chain s.dataLinks o.fields := by
    simpa [Store.dataLinks] using Chain.chain_push h.data_aged hd ho
  simp only [Store.itemOf, Store.dataLinks, Item.mk.injEq, true_and]
  exact hfields

end Store.Sound

/-- Rewriting the texts of a node. -/
theorem view_setData {s : Store τ} {node : Nat} {d d' : MetaData} (hd : s.data[node]? = some d)
    (hprev : d'.prev = d.prev) :
    ({ s with data := s.data.set node d' } : Store τ).view
      = { s.view with entries := s.view.entries.set node (s.entryOf d') } := by
  let s' : Store τ := { s with data := s.data.set node d' }
  have hlinks : s'.dataLinks = s.dataLinks := Store.map_set_self _ hd hprev
  rw [View.mk.injEq]
  constructor
  · show (s.data.set node d').map s'.entryOf = _
    rw [Store.entryOf_congr hlinks, List.map_set]
    rfl
  · show s.objects.map s'.itemOf = s.objects.map s.itemOf
    rw [Store.itemOf_congr hlinks]

/-- Rewriting an object. -/
theorem view_setObject {s : Store τ} (object : Nat) (o : MetaObject τ) :
    ({ s with objects := s.objects.set object o } : Store τ).view
      = { s.view with items := s.view.items.set object (s.itemOf o) } := by
  rw [View.mk.injEq]
  exact ⟨rfl, List.map_set⟩

/-- The check of the pointer a setter is given is that of a valid head. -/
theorem valid_of_all {links : List (Option Nat)} {p : Option Nat} {n : Nat}
    (hn : links.length = n) (hp : p.all (· < n) = true) : Chain.Valid links p := by
  intro q hq
  cases hq
  simpa [hn] using hp

section Calls

variable {s : Store τ}

theorem view_metaObject [DecidableEq τ] (kind : τ) (name : String) :
    .ok (s.metaObject kind name).view = s.view.call (.metaObject kind name) := by
  simp [View.call, Store.view, Store.metaObject, Store.itemOf, Store.entryOf, Store.dataLinks]

theorem view_metaObjectNolist (kind : τ) (name : String) :
    .ok (s.metaObjectNolist kind name).view = s.view.call (.metaObjectNolist kind name) := by
  simp [View.call, Store.view, Store.metaObjectNolist, Store.itemOf, Store.entryOf,
    Store.dataLinks]

theorem view_copyMetaObject (src : Nat) :
    (s.copyMetaObject src).map Store.view = s.view.call (.copyMetaObject src) := by
  rw [Store.copyMetaObject, View.call, Store.view_items_get]
  cases hsrc : s.objects[src]? with
  | none => rfl
  | some o =>
      refine congrArg Except.ok ?_
      rw [View.mk.injEq]
      exact ⟨rfl, List.map_append⟩

theorem view_metaData (h : s.Sound) (target : Nat) (key : String) (value : Option String) :
    (s.metaData target key value).map Store.view = s.view.call (.metaData target key value) := by
  rw [Store.metaData, View.call, Store.view_items_get]
  cases hobj : s.objects[target]? with
  | none => rfl
  | some o =>
      have hcell := h.fields_valid o (List.mem_of_getElem? hobj)
      let d : MetaData := { key := key, value := value, prev := o.fields }
      let o' : MetaObject τ := { o with fields := some s.data.length }
      rw [Option.map_some]
      refine congrArg Except.ok ?_
      rw [View.mk.injEq]
      refine ⟨h.entries_push (d := d) hcell _, ?_⟩
      -- the other objects' chains are where they were; the target's has one node more
      let s' : Store τ := { s with data := s.data ++ [d], objects := s.objects.set target o' }
      have hnew : s'.itemOf o'
          = { s.itemOf o with attached := s.view.entries.length :: (s.itemOf o).attached } := by
        have hchain := Chain.chain_new h.data_aged hcell
        simp only [Store.itemOf, o', s', Item.mk.injEq]
        refine ⟨trivial, trivial, ?_⟩
        simpa [Store.dataLinks, s', d, Store.view] using hchain
      have hold : s.objects.map s'.itemOf = s.objects.map s.itemOf :=
        List.map_congr_left fun o₂ ho₂ => h.itemOf_push hcell (h.fields_valid o₂ ho₂) _
      show (s.objects.set target o').map s'.itemOf = (s.objects.map s.itemOf).set target _
      rw [List.map_set, hold, hnew]

theorem view_copyMetaData (h : s.Sound) (src : Nat) :
    (s.copyMetaData src).map Store.view = s.view.call (.copyMetaData src) := by
  rw [Store.copyMetaData, View.call, Store.view_entries_get]
  cases hsrc : s.data[src]? with
  | none => rfl
  | some d =>
      have hd := h.entry_link (List.mem_of_getElem? hsrc)
      rw [Option.map_some]
      refine congrArg Except.ok ?_
      rw [View.mk.injEq]
      refine ⟨h.entries_push hd _, ?_⟩
      exact List.map_congr_left fun o ho => h.itemOf_push hd (h.fields_valid o ho) _

theorem view_setKey (node : Nat) (key : String) :
    (s.setKey node key).map Store.view = s.view.call (.setKey node key) := by
  rw [Store.setKey, View.call, Store.view_entries_get]
  cases hd : s.data[node]? with
  | none => rfl
  | some d => exact congrArg Except.ok (view_setData hd rfl)

theorem view_setValue (node : Nat) (value : Option String) :
    (s.setValue node value).map Store.view = s.view.call (.setValue node value) := by
  rw [Store.setValue, View.call, Store.view_entries_get]
  cases hd : s.data[node]? with
  | none => rfl
  | some d => exact congrArg Except.ok (view_setData hd rfl)

theorem view_setPrev (object : Nat) (p : Option Nat) :
    (s.setPrev object p).map Store.view = s.view.call (.setPrev object p) := by
  rw [Store.setPrev, View.call, Store.view_items_get]
  cases ho : s.objects[object]? with
  | none => rfl
  | some o =>
      simp only [Option.map_some, Store.view_items_length]
      split
      · -- the item of an object does not show its link
        refine congrArg Except.ok ?_
        rw [View.mk.injEq]
        exact ⟨rfl, Store.map_set_self s.itemOf ho rfl⟩
      · rfl

theorem view_setName (object : Nat) (name : String) :
    (s.setName object name).map Store.view = s.view.call (.setName object name) := by
  rw [Store.setName, View.call, Store.view_items_get]
  cases ho : s.objects[object]? with
  | none => rfl
  | some o => exact congrArg Except.ok (view_setObject object _)

theorem view_setFields (h : s.Sound) (object : Nat) (p : Option Nat) :
    (s.setFields object p).map Store.view = s.view.call (.setFields object p) := by
  rw [Store.setFields, View.call, Store.view_items_get]
  cases ho : s.objects[object]? with
  | none => rfl
  | some o =>
      simp only [Option.map_some, Store.view_entries_length]
      split
      · rename_i hp
        rw [h.front_entries (valid_of_all s.length_dataLinks hp)]
        exact congrArg Except.ok (view_setObject object _)
      · rfl

theorem view_setList [DecidableEq τ] (kind : τ) (p : Option Nat) :
    (s.setList kind p).map Store.view = s.view.call (.setList kind p) := by
  rw [Store.setList, View.call, Store.view_items_length]
  split
  · rfl
  · rfl

/-- **A constructor or setter does to the pointers what its twin does to
the lists**, and fails where the twin fails. -/
theorem view_call [DecidableEq τ] (h : s.Sound) (c : Call τ) :
    (s.call c).map Store.view = s.view.call c := by
  cases c with
  | metaObject kind name => exact view_metaObject kind name
  | metaObjectNolist kind name => exact view_metaObjectNolist kind name
  | copyMetaObject src => exact view_copyMetaObject src
  | metaData target key value => exact view_metaData h target key value
  | copyMetaData src => exact view_copyMetaData h src
  | setKey node key => exact view_setKey node key
  | setValue node value => exact view_setValue node value
  | setPrev object p => exact view_setPrev object p
  | setName object name => exact view_setName object name
  | setFields object p => exact view_setFields h object p
  | setList kind p => exact view_setList kind p

end Calls

/-! ## The pointers stay sound -/

namespace Store.Sound

variable {s : Store τ}

theorem pushObject (h : s.Sound) {o : MetaObject τ} (hfields : Chain.Valid s.dataLinks o.fields)
    (list : τ → Option Nat) :
    ({ s with objects := s.objects ++ [o], list := list } : Store τ).Sound := by
  refine sound_of_links rfl h.data_aged fun o' ho' => ?_
  rcases List.mem_append.mp ho' with ho' | ho'
  · exact h.fields_valid o' ho'
  · cases List.mem_singleton.mp ho'
    exact hfields

theorem pushData (h : s.Sound) {d : MetaData} (hd : Chain.Valid s.dataLinks d.prev)
    {objects : List (MetaObject τ)}
    (hfields : ∀ o ∈ objects, Chain.Valid (s.dataLinks ++ [d.prev]) o.fields) :
    ({ s with data := s.data ++ [d], objects := objects } : Store τ).Sound := by
  have hlinks : (s.data ++ [d]).map (·.prev) = s.dataLinks ++ [d.prev] := by
    simp [Store.dataLinks]
  exact sound_of_links hlinks (h.data_aged.push hd) hfields

theorem setData (h : s.Sound) {node : Nat} {d d' : MetaData} (hd : s.data[node]? = some d)
    (hprev : d'.prev = d.prev) : ({ s with data := s.data.set node d' } : Store τ).Sound :=
  sound_of_links (map_set_self _ hd hprev) h.data_aged h.fields_valid

theorem setObject (h : s.Sound) (object : Nat) {o : MetaObject τ}
    (hfields : Chain.Valid s.dataLinks o.fields) :
    ({ s with objects := s.objects.set object o } : Store τ).Sound := by
  refine sound_of_links rfl h.data_aged fun o₂ ho₂ => ?_
  rcases List.mem_or_eq_of_mem_set ho₂ with ho₂ | rfl
  · exact h.fields_valid o₂ ho₂
  · exact hfields

/-- Every call keeps the pointers sound. -/
theorem call [DecidableEq τ] (h : s.Sound) {c : Call τ} {s' : Store τ}
    (hc : s.call c = .ok s') : s'.Sound := by
  cases c with
  | metaObject kind name =>
      cases hc
      exact h.pushObject (Chain.valid_none _) _
  | metaObjectNolist kind name =>
      cases hc
      exact h.pushObject (Chain.valid_none _) _
  | copyMetaObject src =>
      simp only [Store.call, Store.copyMetaObject] at hc
      split at hc
      · cases hc
      · rename_i o ho
        cases hc
        exact h.pushObject (h.fields_valid o (List.mem_of_getElem? ho)) _
  | metaData target key value =>
      simp only [Store.call, Store.metaData] at hc
      split at hc
      · cases hc
      · rename_i o ho
        cases hc
        have hcell := h.fields_valid o (List.mem_of_getElem? ho)
        refine h.pushData (d := { key := key, value := value, prev := o.fields }) hcell
          fun o₂ ho₂ => ?_
        rcases List.mem_or_eq_of_mem_set ho₂ with ho₂ | rfl
        · exact (h.fields_valid o₂ ho₂).append _
        · simpa using Chain.valid_new s.dataLinks o.fields
  | copyMetaData src =>
      simp only [Store.call, Store.copyMetaData] at hc
      split at hc
      · cases hc
      · rename_i d hd
        cases hc
        exact h.pushData (h.entry_link (List.mem_of_getElem? hd))
          fun o ho => (h.fields_valid o ho).append _
  | setKey node key =>
      simp only [Store.call, Store.setKey] at hc
      split at hc
      · cases hc
      · rename_i d hd
        cases hc
        exact h.setData hd rfl
  | setValue node value =>
      simp only [Store.call, Store.setValue] at hc
      split at hc
      · cases hc
      · rename_i d hd
        cases hc
        exact h.setData hd rfl
  | setPrev object p =>
      simp only [Store.call, Store.setPrev] at hc
      split at hc
      · cases hc
      · rename_i o ho
        split at hc
        · cases hc
          exact h.setObject object (h.fields_valid o (List.mem_of_getElem? ho))
        · cases hc
  | setName object name =>
      simp only [Store.call, Store.setName] at hc
      split at hc
      · cases hc
      · rename_i o ho
        cases hc
        exact h.setObject object (h.fields_valid o (List.mem_of_getElem? ho))
  | setFields object p =>
      simp only [Store.call, Store.setFields] at hc
      split at hc
      · cases hc
      · rename_i o ho
        split at hc
        · rename_i hp
          cases hc
          exact h.setObject object (valid_of_all s.length_dataLinks hp)
        · cases hc
  | setList kind p =>
      simp only [Store.call, Store.setList] at hc
      split at hc
      · cases hc
        exact ⟨h.data_aged, h.fields_valid⟩
      · cases hc

end Store.Sound

/-! ## Whole runs -/

section Runs

variable [DecidableEq τ]

theorem Store.Sound.run {s s' : Store τ} (h : s.Sound) {cs : List (Call τ)}
    (hrun : s.run cs = .ok s') : s'.Sound := by
  induction cs generalizing s with
  | nil =>
      cases hrun
      exact h
  | cons c cs ih =>
      rw [Store.run, List.foldlM_cons] at hrun
      obtain ⟨s₁, hcall, hrest⟩ := bind_ok hrun
      exact ih (h.call hcall) hrest

theorem view_run {s : Store τ} (h : s.Sound) (cs : List (Call τ)) :
    (s.run cs).map Store.view = s.view.run cs := by
  induction cs generalizing s with
  | nil => rfl
  | cons c cs ih =>
      have hstep := view_call h c
      rw [Store.run, View.run, List.foldlM_cons, List.foldlM_cons, ← hstep]
      cases hc : s.call c with
      | error e => rfl
      | ok s₁ => exact ih (h.call hc)

end Runs

end SkyEngine.MetaObjects
