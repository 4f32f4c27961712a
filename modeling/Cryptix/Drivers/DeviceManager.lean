import Mathlib.Data.List.Basic
import Mathlib.Data.List.Nodup
import Mathlib.Logic.Function.Basic
import Cryptix.Lib.Transition

/-!
# Devices and their nodes

`Kernel/Drivers/Core/DeviceManager.cpp`, with `RegisterDevice` and `Lookup` of
`Kernel/VFS/DevTmpFs/DevTmpFs.cpp`, `CreateNode` of `Kernel/VFS/DevTmpFs/DevTmpFsINode.cpp` and the
nodes that `VFS::Initialize` makes. A device is known under its number in three places: the lists of
the device manager, the map of the device file system, and the nodes under `/dev`, each of which is
bound to a device when it is made, if there is one with its number, and never later.

A registration that cannot make its node takes the device off the lists again, but not out of the
map, where it stays in the way of every later device with its number. `log` keeps what was
registered, with a mark for what has stayed on the lists.

Names are single components of paths; `nodesLeft` is what `AllocateNode` has left.
-/

namespace Cryptix.Drivers

open Lib

variable {D N : Type*}

/-- A node under `/dev`: the number that `CreateNode` was called with, which the source does not
keep with the node (it passes 0 on), and `m_Device`. -/
structure DeviceNode (D : Type*) where
  dev : ℕ
  device : Option D

/-- `s_Devices`, `s_CharDevices`, `DevTmpFs::s_Devices`, the nodes under `/dev`, and whether the
file systems are set up. -/
structure DeviceManager (D N : Type*) where
  devices : List D
  charDevices : List D
  devTmpFs : ℕ → Option D
  nodes : N → Option (DeviceNode D)
  nodesLeft : ℕ
  initialized : Bool

namespace DeviceManager

/-- Nothing is registered. -/
def boot (nodesLeft : ℕ) : DeviceManager D N :=
  ⟨[], [], fun _ => none, fun _ => none, nodesLeft, false⟩

section Operations

variable [DecidableEq N] (name : D → N) (id : D → ℕ)

/-- `LookupDevice`. -/
def lookupDevice (s : DeviceManager D N) (i : ℕ) : Option D := s.devices.find? fun d => id d = i

/-- `LookupCharDevice`. -/
def lookupCharDevice (s : DeviceManager D N) (i : ℕ) : Option D :=
  s.charDevices.find? fun d => id d = i

/-- `DevTmpFs::RegisterDevice`. -/
def registerDevice (s : DeviceManager D N) (d : D) : DeviceManager D N :=
  if (s.devTmpFs (id d)).isSome then s
  else { s with devTmpFs := Function.update s.devTmpFs (id d) (some d) }

/-- `VFS::CreateNode` under `/dev`, for a device or for something else. -/
def createNode (s : DeviceManager D N) (n : N) (isDevice : Bool) (dev : ℕ) :
    Bool × DeviceManager D N :=
  if (s.nodes n).isSome then (false, s)
  else
    match s.nodesLeft with
    | 0 => (false, s)
    | nodesLeft + 1 =>
      let node : DeviceNode D := ⟨dev, if isDevice then s.devTmpFs dev else none⟩
      (true, { s with nodes := Function.update s.nodes n (some node), nodesLeft := nodesLeft })

/-- `RegisterCharDevice`, and whether the device has stayed on the lists. -/
def registerCharDevice (s : DeviceManager D N) (cdev : D) : Bool × DeviceManager D N :=
  if (s.lookupDevice id (id cdev)).isSome then (false, s)
  else
    let s₁ := { s with charDevices := s.charDevices ++ [cdev], devices := s.devices ++ [cdev] }
    let s₂ := s₁.registerDevice id cdev
    if !s₂.initialized then (true, s₂)
    else
      match s₂.createNode (name cdev) true (id cdev) with
      | (true, s₃) => (true, s₃)
      | (false, s₃) =>
        (false, { s₃ with devices := s₃.devices.dropLast, charDevices := s₃.charDevices.dropLast })

/-- The nodes of the devices that were there before the file systems; what cannot be made is left
out. -/
def createNodes (s : DeviceManager D N) (l : List D) : DeviceManager D N :=
  l.foldl (fun s d => (s.createNode (name d) true (id d)).2) s

/-- What drivers and the file system ask for. -/
inductive Call (D N : Type*)
  | registerDevice (d : D)
  | registerCharDevice (cdev : D)
  | createNode (n : N) (isDevice : Bool) (dev : ℕ)
  | initializeVFS

/-- One call, with the log of the registrations; there is no `/dev` before `VFS::Initialize`, which
is called once. -/
def step (s : DeviceManager D N × List (D × Bool)) :
    Call D N → Option (DeviceManager D N × List (D × Bool))
  | .registerDevice d => some (s.1.registerDevice id d, s.2 ++ [(d, false)])
  | .registerCharDevice cdev =>
    some ((s.1.registerCharDevice name id cdev).2,
      s.2 ++ [(cdev, (s.1.registerCharDevice name id cdev).1)])
  | .createNode n isDevice dev =>
    some (if s.1.initialized then (s.1.createNode n isDevice dev).2 else s.1, s.2)
  | .initializeVFS =>
    if s.1.initialized then none
    else some ({ s.1.createNodes name id s.1.devices with initialized := true }, s.2)

end Operations

/-! ## Lemmas about the operations -/

section Lemmas

variable {name : D → N} {id : D → ℕ}

theorem createNode_eq_true [DecidableEq N] {s s' : DeviceManager D N} {n : N} {isDevice : Bool}
    {dev : ℕ} (h : s.createNode n isDevice dev = (true, s')) :
    s.nodes n = none ∧ s'.devices = s.devices ∧ s'.charDevices = s.charDevices ∧
      s'.devTmpFs = s.devTmpFs ∧ s'.initialized = s.initialized ∧
      s'.nodes = Function.update s.nodes n
        (some ⟨dev, if isDevice then s.devTmpFs dev else none⟩) := by
  unfold createNode at h
  split at h
  · cases h
  · rename_i hnone
    split at h
    · cases h
    · obtain rfl := (Prod.mk.inj h).2
      exact ⟨Option.not_isSome_iff_eq_none.mp hnone, rfl, rfl, rfl, rfl, rfl⟩

theorem createNode_eq_false [DecidableEq N] {s s' : DeviceManager D N} {n : N} {isDevice : Bool}
    {dev : ℕ} (h : s.createNode n isDevice dev = (false, s')) : s' = s := by
  unfold createNode at h
  split at h
  · exact (Prod.mk.inj h).2.symm
  · split at h
    · exact (Prod.mk.inj h).2.symm
    · cases h

/-- The map has the device that came first with a number. -/
theorem devTmpFs_registerDevice (s : DeviceManager D N) (d : D) (i : ℕ) :
    (s.registerDevice id d).devTmpFs i =
      (s.devTmpFs i).or (if id d = i then some d else none) := by
  unfold registerDevice
  split
  · rename_i hsome
    split
    · rename_i heq
      subst heq
      obtain ⟨d', hd'⟩ := Option.isSome_iff_exists.mp hsome
      rw [hd']
      rfl
    · exact Option.or_none.symm
  · rename_i hnone
    rw [Option.not_isSome_iff_eq_none] at hnone
    dsimp only
    split
    · rename_i heq
      subst heq
      rw [Function.update_self, hnone]
      rfl
    · rename_i hne
      rw [Function.update_of_ne (Ne.symm hne), Option.or_none]

theorem registerDevice_frame (id : D → ℕ) (s : DeviceManager D N) (d : D) :
    (s.registerDevice id d).devices = s.devices ∧
      (s.registerDevice id d).charDevices = s.charDevices ∧
      (s.registerDevice id d).nodes = s.nodes ∧
      (s.registerDevice id d).initialized = s.initialized := by
  unfold registerDevice
  split
  · exact ⟨rfl, rfl, rfl, rfl⟩
  · exact ⟨rfl, rfl, rfl, rfl⟩

/-- What `RegisterCharDevice` does: the number is taken; or the device is on the lists, before the
file systems are set up or with a node of its own; or only the map has it. -/
theorem registerCharDevice_cases [DecidableEq N] (name : D → N) (id : D → ℕ)
    (s : DeviceManager D N) (cdev : D) :
    s.registerCharDevice name id cdev = (false, s) ∧ (s.lookupDevice id (id cdev)).isSome ∨
    (s.lookupDevice id (id cdev) = none ∧ ∃ s',
      s.registerCharDevice name id cdev = (true, s') ∧ s'.devices = s.devices ++ [cdev] ∧
      s'.charDevices = s.charDevices ++ [cdev] ∧ s'.initialized = s.initialized ∧
      s'.devTmpFs = (s.registerDevice id cdev).devTmpFs ∧
      (s.initialized = false ∧ s'.nodes = s.nodes ∨
        s.initialized = true ∧ s.nodes (name cdev) = none ∧
          s'.nodes = Function.update s.nodes (name cdev)
            (some ⟨id cdev, (s.registerDevice id cdev).devTmpFs (id cdev)⟩))) ∨
    (s.initialized = true ∧ ∃ s', s.registerCharDevice name id cdev = (false, s') ∧
      s'.devices = s.devices ∧ s'.charDevices = s.charDevices ∧ s'.initialized = true ∧
      s'.devTmpFs = (s.registerDevice id cdev).devTmpFs ∧ s'.nodes = s.nodes) := by
  unfold registerCharDevice
  split
  · rename_i hsome
    exact .inl ⟨rfl, hsome⟩
  rename_i hnone
  rw [Option.not_isSome_iff_eq_none] at hnone
  dsimp only
  generalize hs₁ : ({ s with charDevices := s.charDevices ++ [cdev],
                             devices := s.devices ++ [cdev] } : DeviceManager D N) = s₁
  have hdevices : s₁.devices = s.devices ++ [cdev] := by rw [← hs₁]
  have hchar : s₁.charDevices = s.charDevices ++ [cdev] := by rw [← hs₁]
  have hnodes : s₁.nodes = s.nodes := by rw [← hs₁]
  have hinit : s₁.initialized = s.initialized := by rw [← hs₁]
  have hmap : (s₁.registerDevice id cdev).devTmpFs = (s.registerDevice id cdev).devTmpFs := by
    funext i
    rw [devTmpFs_registerDevice, devTmpFs_registerDevice, ← hs₁]
  obtain ⟨hdevices₂, hchar₂, hnodes₂, hinit₂⟩ := registerDevice_frame id s₁ cdev
  right
  split
  · rename_i hready
    refine .inl ⟨hnone, _, rfl, hdevices₂.trans hdevices, hchar₂.trans hchar,
      hinit₂.trans hinit, hmap, .inl ⟨?_, hnodes₂.trans hnodes⟩⟩
    rw [← hinit, ← hinit₂]
    simpa using hready
  · rename_i hready
    have hready' : s.initialized = true := by
      rw [← hinit, ← hinit₂]
      simpa using hready
    split
    · rename_i s₃ hmade
      obtain ⟨hfree, hd, hc, hm, hi, hn⟩ := createNode_eq_true hmade
      refine .inl ⟨hnone, s₃, rfl, by rw [hd, hdevices₂, hdevices], by rw [hc, hchar₂, hchar],
        by rw [hi, hinit₂, hinit], hm.trans hmap, .inr ⟨hready', ?_, ?_⟩⟩
      · rw [← hnodes, ← hnodes₂, hfree]
      · rw [hn, hnodes₂, hnodes, if_pos rfl, hmap]
    · rename_i s₃ hmade
      obtain rfl := createNode_eq_false hmade
      refine .inr ⟨hready', _, rfl, ?_, ?_, ?_, hmap, hnodes₂.trans hnodes⟩
      · show (s₁.registerDevice id cdev).devices.dropLast = s.devices
        rw [hdevices₂, hdevices, List.dropLast_concat]
      · show (s₁.registerDevice id cdev).charDevices.dropLast = s.charDevices
        rw [hchar₂, hchar, List.dropLast_concat]
      · rw [← hready', ← hinit]
        exact hinit₂

/-- The nodes of devices with different names that have none are all made, if there is room. -/
theorem createNodes_spec [DecidableEq N] (id : D → ℕ) {l : List D} (s : DeviceManager D N)
    (hnames : (l.map name).Nodup) (hfree : ∀ d ∈ l, s.nodes (name d) = none)
    (hroom : l.length ≤ s.nodesLeft) :
    (s.createNodes name id l).devices = s.devices ∧
      (s.createNodes name id l).charDevices = s.charDevices ∧
      (s.createNodes name id l).devTmpFs = s.devTmpFs ∧
      (∀ n, (∀ d ∈ l, name d ≠ n) → (s.createNodes name id l).nodes n = s.nodes n) ∧
      ∀ d ∈ l, (s.createNodes name id l).nodes (name d) = some ⟨id d, s.devTmpFs (id d)⟩ := by
  induction l generalizing s with
  | nil => exact ⟨rfl, rfl, rfl, fun _ _ => rfl, fun d hd => absurd hd List.not_mem_nil⟩
  | cons d l ih =>
    rw [List.map_cons, List.nodup_cons] at hnames
    rw [List.length_cons] at hroom
    obtain ⟨left, hleft⟩ := Nat.exists_eq_add_one_of_ne_zero (n := s.nodesLeft) (by omega)
    have hmade : s.createNode (name d) true (id d) = (true, { s with
        nodes := Function.update s.nodes (name d) (some ⟨id d, s.devTmpFs (id d)⟩),
        nodesLeft := left }) := by
      rw [createNode, hfree d List.mem_cons_self, hleft]
      rfl
    have hother : ∀ d' ∈ l, name d' ≠ name d := fun d' hd' heq =>
      hnames.1 (heq ▸ List.mem_map_of_mem hd')
    have hstep : s.createNodes name id (d :: l) =
        (s.createNode (name d) true (id d)).2.createNodes name id l := rfl
    obtain ⟨h₁, h₂, h₃, h₄, h₅⟩ := ih { s with
        nodes := Function.update s.nodes (name d) (some ⟨id d, s.devTmpFs (id d)⟩),
        nodesLeft := left } hnames.2
      (fun d' hd' => by
        show Function.update s.nodes (name d) _ (name d') = none
        rw [Function.update_of_ne (hother d' hd'), hfree d' (List.mem_cons_of_mem d hd')])
      (by show l.length ≤ left; omega)
    rw [hstep, hmade]
    refine ⟨h₁, h₂, h₃, fun n hn => ?_, fun d' hd' => ?_⟩
    · rw [h₄ n fun d' hd' => hn d' (List.mem_cons_of_mem d hd')]
      exact Function.update_of_ne (Ne.symm (hn d List.mem_cons_self)) _ _
    · rcases List.mem_cons.mp hd' with rfl | hmem
      · rw [h₄ (name d') hother]
        exact Function.update_self _ _ _
      · exact h₅ d' hmem

end Lemmas

/-! ## The three places agree -/

section Runs

variable (name : D → N) (id : D → ℕ) (number : N → ℕ)

/-- What the callers see to: a name is always used with the same number, and there is room for the
nodes of the devices that were there before the file systems. -/
def Disciplined (s : DeviceManager D N × List (D × Bool)) : Call D N → Prop
  | .createNode n _ dev => dev = number n
  | .initializeVFS => s.1.devices.length ≤ s.1.nodesLeft
  | _ => True

/-- The map has the first device of the log with a number, the lists have the marked ones, and the
nodes are bound to what the map has, those of the listed devices to their own number. -/
structure Inv (s : DeviceManager D N) (log : List (D × Bool)) : Prop where
  devTmpFs : ∀ i, s.devTmpFs i = (log.find? fun e => id e.1 = i).map Prod.fst
  devices : s.devices = (log.filter Prod.snd).map Prod.fst
  charDevices : s.charDevices = s.devices
  ids : (s.devices.map id).Nodup
  nodes : ∀ n node, s.nodes n = some node → s.initialized = true ∧ node.dev = number n ∧
    ∀ d, node.device = some d → s.devTmpFs node.dev = some d
  listed : s.initialized = true → ∀ d ∈ s.devices,
    s.nodes (name d) = some ⟨id d, s.devTmpFs (id d)⟩

namespace Inv

variable {name id number} {s : DeviceManager D N} {log : List (D × Bool)}

theorem inv_boot (nodesLeft : ℕ) :
    Inv name id number (boot nodesLeft : DeviceManager D N) [] :=
  ⟨fun _ => rfl, rfl, rfl, List.nodup_nil, fun _ _ h => absurd h (by simp [boot]),
    fun h => absurd h (by simp [boot])⟩

/-- The map has a device for every number on the lists. -/
theorem mapped (h : Inv name id number s log) {d : D} (hd : d ∈ s.devices) :
    (s.devTmpFs (id d)).isSome := by
  rw [h.devices, List.mem_map] at hd
  obtain ⟨e, he, rfl⟩ := hd
  rw [h.devTmpFs, Option.isSome_map, List.find?_isSome]
  exact ⟨e, List.mem_of_mem_filter he, by simp⟩

/-- One more registration in the log, for the map. -/
theorem devTmpFs_append (h : Inv name id number s log) (d : D) (mark : Bool) (i : ℕ) :
    (s.registerDevice id d).devTmpFs i =
      ((log ++ [(d, mark)]).find? fun e => id e.1 = i).map Prod.fst := by
  rw [devTmpFs_registerDevice, h.devTmpFs, List.find?_append, List.find?_singleton, Option.map_or]
  congr 1
  by_cases heq : id d = i
  · simp [heq]
  · simp [heq]

/-- What the map has, it keeps. -/
theorem devTmpFs_of_some {i : ℕ} {d d' : D} (hd : s.devTmpFs i = some d) :
    (s.registerDevice id d').devTmpFs i = some d := by
  rw [devTmpFs_registerDevice, hd]
  rfl

theorem devTmpFs_of_listed (h : Inv name id number s log) {d d' : D} (hd : d ∈ s.devices) :
    (s.registerDevice id d').devTmpFs (id d) = s.devTmpFs (id d) := by
  obtain ⟨found, hfound⟩ := Option.isSome_iff_exists.mp (h.mapped hd)
  rw [hfound, devTmpFs_of_some hfound]

/-- A registration that only the map sees. -/
theorem register (h : Inv name id number s log) {s' : DeviceManager D N} (d : D)
    (hdevices : s'.devices = s.devices) (hchar : s'.charDevices = s.charDevices)
    (hmap : s'.devTmpFs = (s.registerDevice id d).devTmpFs) (hnodes : s'.nodes = s.nodes)
    (hinit : s'.initialized = s.initialized) : Inv name id number s' (log ++ [(d, false)]) := by
  refine ⟨fun i => ?_, ?_, by rw [hchar, h.charDevices, hdevices], by rw [hdevices]; exact h.ids,
    fun n node hn => ?_, fun hready d' hd' => ?_⟩
  · rw [hmap]
    exact h.devTmpFs_append d false i
  · rw [hdevices, h.devices, List.filter_append, List.map_append]
    exact (List.append_nil _).symm
  · rw [hnodes] at hn
    obtain ⟨hready, hdev, hbound⟩ := h.nodes n node hn
    refine ⟨hinit.trans hready, hdev, fun d' hd' => ?_⟩
    rw [hmap]
    exact devTmpFs_of_some (hbound d' hd')
  · rw [hdevices] at hd'
    rw [hinit] at hready
    rw [hnodes, hmap, h.devTmpFs_of_listed hd', h.listed hready d' hd']

/-- A refused registration of a number that is on the lists. -/
theorem refuse (h : Inv name id number s log) {d : D} (hsome : (s.lookupDevice id (id d)).isSome) :
    Inv name id number s (log ++ [(d, false)]) := by
  have hmap : s.devTmpFs = (s.registerDevice id d).devTmpFs := by
    obtain ⟨d', hd'⟩ := Option.isSome_iff_exists.mp hsome
    have hid : id d' = id d := by simpa using List.find?_some hd'
    have hmapped := h.mapped (List.mem_of_find?_eq_some hd')
    rw [hid] at hmapped
    rw [registerDevice, if_pos hmapped]
  exact h.register d rfl rfl hmap rfl rfl

/-- A registration that stays. -/
theorem enlist [DecidableEq N] (h : Inv name id number s log)
    (hnumber : ∀ d, number (name d) = id d) {s' : DeviceManager D N} {cdev : D}
    (hnone : s.lookupDevice id (id cdev) = none)
    (hdevices : s'.devices = s.devices ++ [cdev])
    (hchar : s'.charDevices = s.charDevices ++ [cdev]) (hinit : s'.initialized = s.initialized)
    (hmap : s'.devTmpFs = (s.registerDevice id cdev).devTmpFs)
    (hnodes : s.initialized = false ∧ s'.nodes = s.nodes ∨
      s.initialized = true ∧ s.nodes (name cdev) = none ∧
        s'.nodes = Function.update s.nodes (name cdev)
          (some ⟨id cdev, (s.registerDevice id cdev).devTmpFs (id cdev)⟩)) :
    Inv name id number s' (log ++ [(cdev, true)]) := by
  have hfresh : ∀ d ∈ s.devices, id d ≠ id cdev := by
    intro d hd
    simpa using List.find?_eq_none.mp hnone d hd
  have hother : ∀ d ∈ s.devices, name d ≠ name cdev := by
    intro d hd heq
    apply hfresh d hd
    rw [← hnumber d, heq, hnumber]
  refine ⟨fun i => ?_, ?_, by rw [hchar, h.charDevices, hdevices], ?_, fun n node hn => ?_,
    fun hready d hd => ?_⟩
  · rw [hmap]
    exact h.devTmpFs_append cdev true i
  · rw [hdevices, h.devices, List.filter_append, List.map_append]
    rfl
  · rw [hdevices, List.map_append, List.nodup_append]
    refine ⟨h.ids, List.nodup_singleton _, fun i hi j hj => ?_⟩
    obtain ⟨d, hd, rfl⟩ := List.mem_map.mp hi
    obtain rfl := List.mem_singleton.mp hj
    exact hfresh d hd
  · have hold : s.nodes n = some node → s'.initialized = true ∧ node.dev = number n ∧
        ∀ d, node.device = some d → s'.devTmpFs node.dev = some d := by
      intro hsame
      obtain ⟨hready, hdev, hbound⟩ := h.nodes n node hsame
      refine ⟨hinit.trans hready, hdev, fun d hd => ?_⟩
      rw [hmap]
      exact devTmpFs_of_some (hbound d hd)
    rcases hnodes with ⟨-, hsame⟩ | ⟨hready, -, hnew⟩
    · exact hold (hsame ▸ hn)
    · rw [hnew, Function.update_apply] at hn
      split at hn
      · rename_i hname
        obtain rfl := Option.some.inj hn
        subst hname
        refine ⟨hinit.trans hready, (hnumber cdev).symm, fun d hd => ?_⟩
        rw [hmap]
        exact hd
      · exact hold hn
  · rw [hinit] at hready
    rcases hnodes with ⟨hnot, -⟩ | ⟨-, -, hnew⟩
    · rw [hready] at hnot
      cases hnot
    · rw [hdevices] at hd
      rcases List.mem_append.mp hd with hmem | hmem
      · rw [hnew, Function.update_of_ne (hother d hmem), hmap, h.devTmpFs_of_listed hmem,
          h.listed hready d hmem]
      · rw [List.mem_singleton.mp hmem, hnew, Function.update_self, hmap]

/-- A node that is made for another reason. -/
theorem createNode [DecidableEq N] (h : Inv name id number s log) (n : N) (isDevice : Bool) :
    Inv name id number
      (if s.initialized then (s.createNode n isDevice (number n)).2 else s) log := by
  split
  · rename_i hready
    cases hmade : s.createNode n isDevice (number n) with
    | mk made s' =>
      cases made with
      | false => rw [createNode_eq_false hmade]; exact h
      | true =>
        obtain ⟨hfree, hdevices, hchar, hmap, hinit, hnodes⟩ := createNode_eq_true hmade
        refine ⟨fun i => by rw [hmap]; exact h.devTmpFs i, hdevices.trans h.devices,
          by rw [hchar, h.charDevices, hdevices], by rw [hdevices]; exact h.ids,
          fun n' node hn => ?_, fun _ d hd => ?_⟩
        · rw [hnodes, Function.update_apply] at hn
          split at hn
          · rename_i hname
            obtain rfl := Option.some.inj hn
            subst hname
            refine ⟨hinit.trans hready, rfl, fun d hd => ?_⟩
            rw [hmap]
            cases isDevice with
            | true => exact hd
            | false => cases hd
          · obtain ⟨hready', hdev, hbound⟩ := h.nodes n' node hn
            exact ⟨hinit.trans hready', hdev, fun d hd => hmap ▸ hbound d hd⟩
        · rw [hdevices] at hd
          have hnode := h.listed hready d hd
          have hne : name d ≠ n := by
            rintro rfl
            rw [hfree] at hnode
            cases hnode
          rw [hnodes, Function.update_of_ne hne, hmap, hnode]
  · exact h

/-- The nodes of the devices that were there before. -/
theorem initializeVFS [DecidableEq N] (h : Inv name id number s log)
    (hnumber : ∀ d, number (name d) = id d) (hnot : s.initialized = false)
    (hroom : s.devices.length ≤ s.nodesLeft) :
    Inv name id number { s.createNodes name id s.devices with initialized := true } log := by
  have hfree : ∀ n, s.nodes n = none := by
    intro n
    cases hn : s.nodes n with
    | none => rfl
    | some node =>
      rw [(h.nodes n node hn).1] at hnot
      cases hnot
  have hnames : (s.devices.map name).Nodup := by
    refine List.Nodup.of_map number ?_
    rw [List.map_map]
    rw [show number ∘ name = id from funext hnumber]
    exact h.ids
  obtain ⟨hdevices, hchar, hmap, hother, hmade⟩ :=
    s.createNodes_spec id hnames (fun d _ => hfree (name d)) hroom
  refine ⟨fun i => ?_, ?_, ?_, ?_, fun n node hn => ?_, fun _ d hd => ?_⟩
  · exact (congrFun hmap i).trans (h.devTmpFs i)
  · exact hdevices.trans h.devices
  · exact hchar.trans (h.charDevices.trans hdevices.symm)
  · show ((s.createNodes name id s.devices).devices.map id).Nodup
    rw [hdevices]
    exact h.ids
  · change (s.createNodes name id s.devices).nodes n = some node at hn
    by_cases hd : ∃ d ∈ s.devices, name d = n
    · obtain ⟨d, hd, rfl⟩ := hd
      rw [hmade d hd] at hn
      obtain rfl := Option.some.inj hn
      exact ⟨rfl, (hnumber d).symm, fun d' hd' => (congrFun hmap (id d)).trans hd'⟩
    · rw [hother n fun d hd' hname => hd ⟨d, hd', hname⟩, hfree] at hn
      cases hn
  · change d ∈ (s.createNodes name id s.devices).devices at hd
    rw [hdevices] at hd
    exact (hmade d hd).trans (by rw [← congrFun hmap (id d)])

theorem step [DecidableEq N] (hnumber : ∀ d, number (name d) = id d)
    {s s' : DeviceManager D N × List (D × Bool)} (h : Inv name id number s.1 s.2) {c : Call D N}
    (hok : Disciplined number s c) (hstep : step name id s c = some s') :
    Inv name id number s'.1 s'.2 := by
  cases c with
  | registerDevice d =>
    obtain rfl := Option.some.inj hstep
    obtain ⟨hdevices, hchar, hnodes, hinit⟩ := registerDevice_frame id s.1 d
    exact h.register d hdevices hchar rfl hnodes hinit
  | registerCharDevice cdev =>
    obtain rfl := Option.some.inj hstep
    rcases registerCharDevice_cases name id s.1 cdev with
      ⟨heq, hsome⟩ | ⟨hnone, s', heq, hdevices, hchar, hinit, hmap, hnodes⟩ |
      ⟨hready, s', heq, hdevices, hchar, hinit, hmap, hnodes⟩
    · rw [heq]
      exact h.refuse hsome
    · rw [heq]
      exact h.enlist hnumber hnone hdevices hchar hinit hmap hnodes
    · rw [heq]
      exact h.register cdev hdevices hchar hmap hnodes (hinit.trans hready.symm)
  | createNode n isDevice dev =>
    obtain rfl := Option.some.inj hstep
    obtain rfl : dev = number n := hok
    exact h.createNode n isDevice
  | initializeVFS =>
    rw [DeviceManager.step] at hstep
    split at hstep
    · cases hstep
    · rename_i hnot
      obtain rfl := Option.some.inj hstep
      exact h.initializeVFS hnumber (Bool.eq_false_iff.mpr hnot) hok

end Inv

/-- Over every run of registrations and of nodes that are made, the map of the device file system
has the first device that came with a number, the lists have the one that stayed; a node never
leads to a device with another number, and the node of a listed device leads to it, unless another
device came with its number. -/
theorem devices_agree [DecidableEq N] (hnumber : ∀ d, number (name d) = id d) {nodesLeft : ℕ}
    {s : DeviceManager D N × List (D × Bool)}
    (hrun : Reaches (step name id) (Disciplined number) (boot nodesLeft, []) s) :
    (∀ i, s.1.devTmpFs i = (s.2.find? fun e => id e.1 = i).map Prod.fst) ∧
      (∀ i, s.1.lookupDevice id i = (s.2.find? fun e => e.2 ∧ id e.1 = i).map Prod.fst ∧
        s.1.lookupCharDevice id i = s.1.lookupDevice id i) ∧
      (s.1.devices.map id).Nodup ∧
      (∀ n node d, s.1.nodes n = some node → node.device = some d →
        id d = number n ∧ s.1.devTmpFs (number n) = some d) ∧
      (s.1.initialized = true → ∀ d ∈ s.1.devices, (∀ e ∈ s.2, id e.1 = id d → e.1 = d) →
        s.1.nodes (name d) = some ⟨id d, some d⟩) := by
  have h : Inv name id number s.1 s.2 := hrun.invariant (P := fun s => Inv name id number s.1 s.2)
    (Inv.inv_boot nodesLeft) fun _ _ _ h hok hstep => h.step hnumber hok hstep
  refine ⟨h.devTmpFs, fun i => ⟨?_, ?_⟩, h.ids, fun n node d hn hd => ?_,
    fun hready d hd honly => ?_⟩
  · rw [lookupDevice, h.devices, List.find?_map, List.find?_filter]
    simp only [Function.comp_def, Bool.decide_and, Bool.decide_eq_true]
  · rw [lookupCharDevice, h.charDevices, lookupDevice]
  · obtain ⟨-, hdev, hbound⟩ := h.nodes n node hn
    have hmap := hbound d hd
    rw [hdev] at hmap
    refine ⟨?_, hmap⟩
    rw [h.devTmpFs, Option.map_eq_some_iff] at hmap
    obtain ⟨e, he, rfl⟩ := hmap
    simpa using List.find?_some he
  · obtain ⟨d', hd'⟩ := Option.isSome_iff_exists.mp (h.mapped hd)
    have hfirst := hd'
    rw [h.devTmpFs, Option.map_eq_some_iff] at hfirst
    obtain ⟨e, he, rfl⟩ := hfirst
    rw [h.listed hready d hd, hd', honly e (List.mem_of_find?_eq_some he)
      (by simpa using List.find?_some he)]

end Runs

/-- One device comes before the file systems and one after; both have their nodes. -/
theorem devices_agree_two : ∃ s : DeviceManager Bool ℕ × List (Bool × Bool),
    Reaches (step Bool.toNat Bool.toNat) (Disciplined fun n => n) (boot 2, []) s ∧
      s.1.nodes 0 = some ⟨0, some false⟩ ∧ s.1.nodes 1 = some ⟨1, some true⟩ := by
  have hrun : ∃ s, Reaches (step Bool.toNat Bool.toNat) (Disciplined fun n => n)
      ((boot 2 : DeviceManager Bool ℕ), []) s ∧ s.1.initialized = true ∧
      s.1.devices = [false, true] :=
    ⟨_, .tail (.registerCharDevice true) (.tail .initializeVFS (.tail (.registerCharDevice false)
      .refl trivial rfl) (by decide : 1 ≤ 2) rfl) trivial rfl, rfl, rfl⟩
  obtain ⟨s, hs, hready, hdevices⟩ := hrun
  have hnodes := (devices_agree Bool.toNat Bool.toNat (fun n => n) (fun _ => rfl) hs).2.2.2.2 hready
  have honly : ∀ d : Bool, ∀ e ∈ s.2, Bool.toNat e.1 = Bool.toNat d → e.1 = d := by
    intro d e _ heq
    revert heq
    cases e.1 <;> cases d <;> decide
  refine ⟨s, hs, hnodes false ?_ (honly false), hnodes true ?_ (honly true)⟩
  · rw [hdevices]
    decide
  · rw [hdevices]
    decide

end DeviceManager

end Cryptix.Drivers
