import StateTableBench.ZoomStorage.Service

/-!
# Reading all objects of a class

`getAll` of the Zoom storage should return what `get` returns for the objects of the class that are
stored, after any calls of `create`, `update` and `delete`.

`getAllAgrees_iff`: it returns the messages of routers and bridges, since only those of ports are
converted. The class of a port is not accepted at all, because `isAssignableFrom` is called the
wrong way round. So `getAll` agrees with `get` only as long as no router, or no bridge, is stored.
-/

open FiniteMap

namespace ZoomStorage

variable {U K M A : Type}

/-- A call that changes what is stored. The key of `create` is the random one. -/
inductive Call (U K M A : Type)
  | create (id : U) (object : Entity U K M A)
  | update (object : Entity U K M A)
  | delete (clazz : Class) (id : U)

/-- What is stored, and the classes and keys of the objects that have been created. -/
structure History (S : Type → Type → Type) (U K A : Type) where
  zoom : Zoom S U K A
  created : List (Class × U)

section Calls

variable {S : Type → Type → Type} [FiniteMap S] [DecidableEq U] (lib : Library U K M A)

/-- A call that succeeds. -/
def step (s : History S U K A) : Call U K M A → Except Exn (History S U K A)
  | .create id object => do
    let (_, zoom) ← create lib (fun _ => lib.toProto) none id object s.zoom
    return ⟨zoom, (object.getClass, id) :: s.created⟩
  | .update object => do
    return { s with zoom := ← update lib (fun _ => lib.toProto) none object s.zoom }
  | .delete clazz id => do
    return { s with zoom := ← delete none clazz id s.zoom }

/-- Successful calls from an empty storage. -/
def run (calls : List (Call U K M A)) : Except Exn (History S U K A) :=
  calls.foldlM (step lib) ⟨⟨empty, empty, empty⟩, []⟩

/-- The classes that `create` accepts. -/
def creatable : List Class := [.router, .bridge, .routerPort, .bridgePort]

/-- The keys of the messages that the objects of a class are stored as. -/
def storedIds (s : Zoom S U K A) : Class → List U
  | .router => (entries s.routers).map Prod.fst
  | .bridge => (entries s.networks).map Prod.fst
  | .routerPort | .bridgePort => (entries s.ports).map Prod.fst
  | _ => []

/-- The keys of the objects that have been created as instances of a class and are stored. -/
def storedAs (s : History S U K A) (clazz : Class) : List U :=
  (storedIds s.zoom clazz).filter fun id => (clazz, id) ∈ s.created

/-- `getAll` returns what `get` returns for each of them, as instances of the class. The addresses
of new ports of routers are `random`, and `random'` in `get`. -/
def GetAllAgrees (random : Topology.Port K A → M) (random' : U → M) (s : History S U K A)
    (clazz : Class) : Prop :=
  ∃ list objects, getAll lib random clazz s.zoom = .ok list ∧
    (storedAs s clazz).mapM (fun id => get lib (random' id) clazz id s.zoom) = .ok objects ∧
    list.Perm objects ∧
    ∀ object ∈ list, clazz.isAssignableFrom object.getClass = true

end Calls

/-! ## What is stored -/

/-- The kinds of messages. -/
inductive Kind
  | router
  | network
  | port
deriving DecidableEq

def Message.kind : Message K A → Kind
  | .router _ => .router
  | .network _ => .network
  | .port _ => .port

section Stored

variable {S : Type → Type → Type} [FiniteMap S] [DecidableEq U] {lib : Library U K M A}
variable {s s' : Zoom S U K A} {message : Message K A} {kind : Kind} {id : U}

/-- There is a message of a kind under a key. -/
def Zoom.Has (s : Zoom S U K A) (kind : Kind) (id : U) : Prop :=
  match kind with
  | .router => (get? s.routers id).isSome = true
  | .network => (get? s.networks id).isSome = true
  | .port => (get? s.ports id).isSome = true

/-- The keys after a write, if the operation for a key adds at most those with `Q`. -/
theorem Zoom.has_of_has_write {op : ∀ ν : Type, U → ν → S U ν → Except Exn (S U ν)}
    {Q : U → U → Prop}
    (hop : ∀ (ν : Type) (a : U) (x : ν) (m m' : S U ν), op ν a x m = .ok m' →
      ∀ b, (get? m' b).isSome = true → (get? m b).isSome = true ∨ Q a b)
    (h : Zoom.write lib.fromProto op message s = .ok s') (hhas : s'.Has kind id) :
    s.Has kind id ∨ message.kind = kind ∧
      ∃ key, message.id = some key ∧ Q (lib.fromProto key) id := by
  cases message with
  | router message | network message | port message =>
    obtain ⟨key, hkey, hrest⟩ := Run.bind_eq_ok_iff.mp h
    obtain ⟨m, hm, hreturn⟩ := Run.bind_eq_ok_iff.mp hrest
    cases hreturn
    -- the messages of the other kinds are not touched
    cases kind <;> first
      | exact .inl hhas
      | exact (hop _ _ _ _ _ hm id hhas).imp_right fun hQ =>
          ⟨rfl, key, nonNull_eq_ok_iff.mp hkey, hQ⟩

/-- A call of `create` adds its message. -/
theorem Zoom.has_of_has_create {failure : Option Exn}
    (h : s.create lib failure message = .ok s') (hhas : s'.Has kind id) :
    s.Has kind id ∨ message.kind = kind ∧ message.id.map lib.fromProto = some id := by
  have hkeys := Zoom.has_of_has_write (Q := fun a b => b = a) (fun ν a x m m' hm b hsome => ?_)
    (attempt_eq_ok_iff.mp h).2 hhas
  · refine hkeys.imp_right fun ⟨hkind, key, hkey, heq⟩ => ⟨hkind, ?_⟩
    rw [hkey, heq]
    rfl
  · obtain ⟨-, rfl⟩ := createIn_eq_ok_iff.mp hm
    rw [get?_put] at hsome
    split at hsome
    · next heq => exact .inr heq
    · exact .inl hsome

/-- A call of `update` only replaces one. -/
theorem Zoom.has_of_has_update {failure : Option Exn}
    (h : s.update lib failure message = .ok s') (hhas : s'.Has kind id) : s.Has kind id := by
  -- there is a message under the key that is updated
  have hkeys := Zoom.has_of_has_write (Q := fun _ _ => False) (fun ν a x m m' hm b hsome => ?_)
    (attempt_eq_ok_iff.mp h).2 hhas
  · exact hkeys.resolve_right fun ⟨_, _, _, hfalse⟩ => hfalse
  · obtain ⟨⟨y, hy⟩, rfl⟩ := updateIn_eq_ok_iff.mp hm
    rw [get?_put] at hsome
    split at hsome
    · next heq =>
      rw [heq, hy]
      exact .inl rfl
    · exact .inl hsome

/-- A deletion adds no object. -/
theorem isSome_of_deleteIn {ν : Type} {a b : U} {m m' : S U ν} (h : Zoom.deleteIn a m = .ok m')
    (hsome : (get? m' b).isSome = true) : (get? m b).isSome = true := by
  unfold Zoom.deleteIn at h
  split at h
  · cases h
    rw [get?_remove] at hsome
    split at hsome
    · cases hsome
    · exact hsome
  · cases h

/-- A call of `delete` removes one. -/
theorem has_of_has_delete {failure : Option Exn} {clazz : Class} {a : U}
    (h : delete failure clazz a s = .ok s') (hhas : s'.Has kind id) : s.Has kind id := by
  unfold delete at h
  split_ifs at h <;>
  · obtain ⟨m, hm, hreturn⟩ := Run.bind_eq_ok_iff.mp (attempt_eq_ok_iff.mp h).2
    cases hreturn
    cases kind <;> first
      | exact hhas
      | exact isSome_of_deleteIn hm hhas

end Stored

section History

variable {S : Type → Type → Type} [FiniteMap S] [DecidableEq U] {lib : Library U K M A}
variable {s s' : History S U K A} {random : Topology.Port K A → M} {random' : U → M}

/-- The messages of routers and bridges are those of objects that have been created. -/
structure Known (s : History S U K A) : Prop where
  router : ∀ id, s.zoom.Has .router id → (Class.router, id) ∈ s.created
  bridge : ∀ id, s.zoom.Has .network id → (Class.bridge, id) ∈ s.created

omit [DecidableEq U] in
/-- The class of an object determines the kind of its message. -/
theorem kind_of_toProto {new : ℕ → U → K} {object : Entity U K M A} {message : Message K A}
    (h : object.toProto lib new = .ok message) :
    (message.kind = .router → object.getClass = .router) ∧
      (message.kind = .network → object.getClass = .bridge) := by
  cases object with
  | router object | bridge object | routerPort object | bridgePort object =>
    obtain ⟨m, -, hreturn⟩ := Run.bind_eq_ok_iff.mp h
    cases hreturn
    simp [Message.kind, Entity.getClass]
  | message object => cases h

/-- A successful call keeps this. -/
theorem Known.step (h : Known s) {call : Call U K M A} (hstep : step lib s call = .ok s') :
    Known s' := by
  cases call with
  | create id object =>
    obtain ⟨⟨object', zoom⟩, hcreate, hreturn⟩ := Run.bind_eq_ok_iff.mp hstep
    cases hreturn
    obtain ⟨message, hmessage, hwrite, -⟩ := create_eq_ok_iff.mp hcreate
    have hid := Entity.id_of_toProto (fun _ => lib.fromProto_toProto) hmessage
    -- the class of the object determines the kind of its message, whatever its key is
    have hclass : (object.setId id).getClass = object.getClass := by cases object <;> rfl
    obtain ⟨hrouter, hnetwork⟩ := kind_of_toProto hmessage
    rw [hclass] at hrouter hnetwork
    -- a message of this kind was stored before, or it is that of the new object
    have hkeep : ∀ {kind : Kind} {clazz : Class},
        (∀ id, s.zoom.Has kind id → (clazz, id) ∈ s.created) →
        (message.kind = kind → object.getClass = clazz) →
        ∀ id', zoom.Has kind id' → (clazz, id') ∈ (object.getClass, id) :: s.created := by
      intro kind clazz hstored hkind id' hhas
      rcases Zoom.has_of_has_create hwrite hhas with hold | ⟨heq, hkey⟩
      · exact List.mem_cons_of_mem _ (hstored id' hold)
      · obtain rfl := Option.some.inj (hid.symm.trans hkey)
        rw [hkind heq]
        exact List.mem_cons_self
    exact ⟨hkeep h.router hrouter, hkeep h.bridge hnetwork⟩
  | update object =>
    obtain ⟨zoom, hupdate, hreturn⟩ := Run.bind_eq_ok_iff.mp hstep
    cases hreturn
    obtain ⟨message, -, hwrite⟩ := Run.bind_eq_ok_iff.mp hupdate
    exact ⟨fun id hhas => h.router id (Zoom.has_of_has_update hwrite hhas),
      fun id hhas => h.bridge id (Zoom.has_of_has_update hwrite hhas)⟩
  | delete clazz id =>
    obtain ⟨zoom, hdelete, hreturn⟩ := Run.bind_eq_ok_iff.mp hstep
    cases hreturn
    exact ⟨fun id hhas => h.router id (has_of_has_delete hdelete hhas),
      fun id hhas => h.bridge id (has_of_has_delete hdelete hhas)⟩

/-- The stored routers and bridges are those of objects that a call has created. -/
theorem known_run {calls : List (Call U K M A)} (h : run lib calls = .ok s) : Known s := by
  refine Run.inv_foldlM (fun s call s' hs hstep => hs.step hstep) ⟨?_, ?_⟩ h
  · intro id hhas
    simp [Zoom.Has] at hhas
  · intro id hhas
    simp [Zoom.Has] at hhas

/-! ## `getAll` -/

/-- For the class of a port it throws. -/
theorem not_getAllAgrees_port {clazz : Class} (h : clazz = .routerPort ∨ clazz = .bridgePort) :
    ¬GetAllAgrees lib random random' s clazz := by
  rintro ⟨list, objects, hlist, -⟩
  rcases h with rfl | rfl
  · exact absurd hlist (by simp [getAll, wrap, Class.isAssignableFrom])
  · exact absurd hlist (by simp [getAll, wrap, Class.isAssignableFrom])

/-- For routers and bridges it returns what has not been converted. -/
theorem getAllAgrees_iff_of_messages {clazz : Class} {ν : Type} {m : S U ν}
    {message : ν → Message K A}
    (hgetAll : getAll lib random clazz s.zoom =
      .ok ((getAllAsList m).map fun x => .message (message x)))
    (hclass : clazz.isAssignableFrom .object = false)
    (hids : storedIds s.zoom clazz = (entries m).map Prod.fst)
    (hknown : ∀ id, (get? m id).isSome = true → (clazz, id) ∈ s.created) :
    GetAllAgrees lib random random' s clazz ↔ storedAs s clazz = [] := by
  constructor
  · rintro ⟨list, objects, hlist, -, -, hinstances⟩
    -- the messages in the list would have to be instances of the class
    obtain rfl := Except.ok.inj (hgetAll.symm.trans hlist)
    have hnone : entries m = [] := by
      rw [List.eq_nil_iff_forall_not_mem]
      rintro ⟨id, x⟩ hmem
      have hinstance := hinstances (.message (message x))
        (List.mem_map_of_mem (List.mem_map_of_mem (f := Prod.snd) hmem))
      rw [Entity.getClass, hclass] at hinstance
      cases hinstance
    rw [storedAs, hids, hnone]
    rfl
  · intro hstored
    have hnone : entries m = [] := by
      rw [List.eq_nil_iff_forall_not_mem]
      rintro ⟨id, x⟩ hmem
      have hsome : (get? m id).isSome = true := by rw [mem_entries.mp hmem]; rfl
      -- a message that is stored is that of an object of the class
      have hin : id ∈ storedAs s clazz := by
        rw [storedAs, hids]
        exact List.mem_filter.mpr ⟨List.mem_map_of_mem (f := Prod.fst) hmem,
          decide_eq_true (hknown id hsome)⟩
      rw [hstored] at hin
      cases hin
    refine ⟨[], [], ?_, ?_, .nil, List.forall_mem_nil _⟩
    · rw [hgetAll, getAllAsList, hnone]
      rfl
    · rw [hstored]
      rfl

/-- After any successful calls `getAll` agrees with `get` for a class exactly if this is the class
of routers or of bridges and none is stored. -/
theorem getAllAgrees_iff (lib : Library U K M A) (random : Topology.Port K A → M) (random' : U → M)
    (calls : List (Call U K M A)) (h : run lib calls = .ok s) {clazz : Class}
    (hclazz : clazz ∈ creatable) :
    GetAllAgrees lib random random' s clazz ↔
      (clazz = .router ∨ clazz = .bridge) ∧ storedAs s clazz = [] := by
  have hknown := known_run h
  -- the two kinds of ports are handled together
  simp only [creatable, List.mem_cons, List.not_mem_nil, or_false] at hclazz
  rcases hclazz with rfl | rfl | hport
  · rw [getAllAgrees_iff_of_messages (m := s.zoom.routers) rfl rfl rfl hknown.router]
    simp
  · rw [getAllAgrees_iff_of_messages (m := s.zoom.networks) rfl rfl rfl hknown.bridge]
    simp
  · refine ⟨fun hagrees => absurd hagrees (not_getAllAgrees_port hport), ?_⟩
    rintro ⟨hclass, -⟩
    rcases hport with rfl | rfl <;> simp at hclass

/-- One bridge is created, but no router. -/
theorem getAllAgrees_router :
    ∃ s : History AssocMap Uuid Uuid Int32,
      run twoKeys [.create .one (.bridge { adminStateUp := true })] = .ok s ∧
        GetAllAgrees twoKeys (fun _ => ()) (fun _ => ()) s .router :=
  ⟨_, rfl, (getAllAgrees_iff twoKeys _ _ [.create .one (.bridge { adminStateUp := true })] rfl
    (by decide)).mpr ⟨.inl rfl, rfl⟩⟩

/-- The message of this bridge is returned. -/
theorem not_getAllAgrees_bridge :
    ∃ s : History AssocMap Uuid Uuid Int32,
      run twoKeys [.create .one (.bridge { adminStateUp := true })] = .ok s ∧
        ¬GetAllAgrees twoKeys (fun _ => ()) (fun _ => ()) s .bridge ∧
        ¬GetAllAgrees twoKeys (fun _ => ()) (fun _ => ()) s .routerPort := by
  refine ⟨_, rfl, ?_, not_getAllAgrees_port (.inl rfl)⟩
  rintro ⟨list, objects, hlist, -, -, hinstances⟩
  cases hlist
  exact absurd (hinstances _ List.mem_cons_self) (by decide)

end History

end ZoomStorage
