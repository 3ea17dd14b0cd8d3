import SideDumper.Settings
import Mathlib.Data.List.Nodup

/-!
# The files under `/proc`

`InstallProcFs` makes the directory `side_dumper` with the files `enabled` and
`disabled` and a directory `device_settings` in it, with a file for each
device and one for all. It gives up where one of the first four cannot be
made; `RemoveProcFs` removes whatever there is.

The tree is the list of its entries, each with the address of its parent
directory, 0 for `/proc` itself. `remove_proc_entry` takes one entry out of
it. The entries in a directory that is removed are not looked for, and stay.
-/

/-- **`struct proc_dir_entry`**: where it lies, its name and its parent. -/
structure ProcEntry where
  addr : ℕ
  name : List Char
  parent : ℕ
deriving DecidableEq, Repr

/-- What an entry is looked up by. -/
def ProcEntry.key (e : ProcEntry) : List Char × ℕ := (e.name, e.parent)

/-- The entries under `/proc`, the latest first, with `g_Inst`: what the two
pointers point to. -/
structure ProcFs where
  tree : List ProcEntry
  pRootDir : Option ProcEntry
  pSettingsDir : Option ProcEntry

namespace ProcFs

/-- The address of a directory, 0 for a null pointer. -/
def dirAddr (d : Option ProcEntry) : ℕ := (d.map ProcEntry.addr).getD 0

/-- `proc_mkdir` and `create_proc_entry`, with the address of the entry, 0
when it cannot be made. -/
def create (addr : ℕ) (name : List Char) (parent : Option ProcEntry) : Option ProcEntry :=
  if addr = 0 then none else some ⟨addr, name, dirAddr parent⟩

/-- The tree with the entry that was made. -/
def link (s : ProcFs) (e : Option ProcEntry) : ProcFs := { s with tree := e.toList ++ s.tree }

/-- `remove_proc_entry`. -/
def remove (s : ProcFs) (name : List Char) (parent : ℕ) : ProcFs :=
  { s with tree := s.tree.eraseP (·.key = (name, parent)) }

/-- The devices of the loops over `device_xx`, which run up to
`g_uMaxDevNumber` and stop at the first that `SideDumper_GetDeviceSettings`
does not know. -/
def devices (t : DevSettings) : List ℕ :=
  (List.range' 1 99).takeWhile (fun u => (getDeviceSettings t u).isSome)

/-- `sprintf(sz, "device_%02u", uDev)`. -/
def deviceName (u : ℕ) : List Char := "device_".toList ++ padZero 2 (Nat.toDigits 10 u)

/-- **`InstallProcFs`**, with the addresses that the entries get in the order
in which they are made. The return value is `-16` for `-EBUSY`. -/
def installProcFs (t : DevSettings) (addr : ℕ → ℕ) (s : ProcFs) : ProcFs × ℤ :=
  let root := create (addr 0) "side_dumper".toList none
  let s := { s.link root with pRootDir := root }
  if root = none then (s, -16)
  else
    let enabled := create (addr 1) "enabled".toList s.pRootDir
    let s := s.link enabled
    if enabled = none then (s, -16)
    else
      let disabled := create (addr 2) "disabled".toList s.pRootDir
      let s := s.link disabled
      if disabled = none then (s, -16)
      else
        let settings := create (addr 3) "device_settings".toList s.pRootDir
        let s := { s.link settings with pSettingsDir := settings }
        if settings = none then (s, -16)
        else
          let s := s.link (create (addr 4) "all".toList s.pSettingsDir)
          ((devices t).foldl (fun s u =>
            s.link (create (addr (4 + u)) (deviceName u) s.pSettingsDir)) s, 0)

/-- The first part of `RemoveProcFs`, for `device_settings`. -/
def removeSettings (t : DevSettings) (s : ProcFs) : ProcFs :=
  match s.pSettingsDir with
  | none => s
  | some d =>
    let s := (devices t).foldl (fun s u => s.remove (deviceName u) d.addr) s
    let s := s.remove "all".toList d.addr
    { s.remove d.name 0 with pSettingsDir := none }

/-- The second part, for the root. -/
def removeRoot (s : ProcFs) : ProcFs :=
  match s.pRootDir with
  | none => s
  | some d =>
    let s := s.remove "enabled".toList d.addr
    let s := s.remove "disabled".toList d.addr
    { s.remove d.name 0 with pRootDir := none }

/-- **`RemoveProcFs`**. -/
def removeProcFs (t : DevSettings) (s : ProcFs) : ProcFs := (s.removeSettings t).removeRoot

/-! ## Removing by name -/

/-- The names that are removed, with their parents. -/
abbrev Keys := List (List Char × ℕ)

/-- `remove_proc_entry` for one name after the other. -/
def removeAll (s : ProcFs) (ks : Keys) : ProcFs := ks.foldl (fun s k => s.remove k.1 k.2) s

section Keys

variable {s : ProcFs} {xs ys : List ProcEntry} {ks : Keys}

theorem eraseP_key {k : List Char × ℕ} (h : (xs.map ProcEntry.key).Nodup) :
    xs.eraseP (·.key = k) = xs.filter (·.key ≠ k) := by
  induction xs with
  | nil => rfl
  | cons e xs ih =>
    rw [List.map_cons, List.nodup_cons] at h
    by_cases he : e.key = k
    · rw [List.eraseP_cons_of_pos (by simpa using he),
        List.filter_cons_of_neg (by simpa using he), eq_comm, List.filter_eq_self]
      intro e' he'
      rw [decide_eq_true_iff]
      rintro rfl
      exact h.1 (he ▸ List.mem_map_of_mem he')
    · rw [List.eraseP_cons_of_neg (by simpa using he),
        List.filter_cons_of_pos (by simpa using he), ih h.2]

/-- **What is removed by name** is gone from entries with different names, and
from nowhere else. -/
theorem removeAll_tree (ht : s.tree = xs ++ ys) (h : (xs.map ProcEntry.key).Nodup)
    (hys : ∀ e ∈ ys, e.key ∉ ks) : (s.removeAll ks).tree = xs.filter (·.key ∉ ks) ++ ys := by
  induction ks generalizing s xs with
  | nil =>
    rw [removeAll, List.foldl_nil, ht]
    simp
  | cons k ks ih =>
    have hk : (s.remove k.1 k.2).tree = xs.filter (·.key ≠ k) ++ ys := by
      rw [remove, ht]
      dsimp only
      rw [← eraseP_key h, List.eraseP_append, List.eraseP_of_forall_not (l := ys)]
      · split <;> rename_i hany
        · rfl
        · rw [List.eraseP_of_forall_not]
          intro e he hek
          exact hany (List.any_eq_true.mpr ⟨e, he, hek⟩)
      · intro e he hek
        exact hys e he (by rw [of_decide_eq_true hek]; exact List.mem_cons_self)
    have hnodup : ((xs.filter (·.key ≠ k)).map ProcEntry.key).Nodup :=
      h.sublist (List.filter_sublist.map _)
    have hrest := ih hk hnodup (fun e he hmem => hys e he (List.mem_cons_of_mem _ hmem))
    rw [removeAll, List.foldl_cons]
    refine hrest.trans ?_
    rw [List.filter_filter]
    congr 1
    refine List.filter_congr fun e _ => ?_
    rw [← Bool.decide_and, decide_eq_decide, List.mem_cons, not_or, and_comm]

theorem removeAll_append (ks ks' : Keys) :
    s.removeAll (ks ++ ks') = (s.removeAll ks).removeAll ks' := List.foldl_append

/-- The loop over `device_xx` of `RemoveProcFs`. -/
theorem foldl_remove (us : List ℕ) (p : ℕ) : us.foldl (fun s u => s.remove (deviceName u) p) s
    = s.removeAll (us.map (fun u => (deviceName u, p))) := by
  rw [removeAll, List.foldl_map]

/-- What the first part of `RemoveProcFs` removes. -/
def settingsKeys (t : DevSettings) : Option ProcEntry → Keys
  | none => []
  | some d => (devices t).map (fun u => (deviceName u, d.addr)) ++ [("all".toList, d.addr),
      (d.name, 0)]

/-- What the second part removes. -/
def rootKeys : Option ProcEntry → Keys
  | none => []
  | some d => [("enabled".toList, d.addr), ("disabled".toList, d.addr), (d.name, 0)]

theorem removeAll_pRootDir (ks : Keys) : (s.removeAll ks).pRootDir = s.pRootDir := by
  induction ks generalizing s with
  | nil => rfl
  | cons k ks ih => exact ih

theorem removeSettings_eq (t : DevSettings) (s : ProcFs) : s.removeSettings t
    = { s.removeAll (settingsKeys t s.pSettingsDir) with pSettingsDir := none } := by
  unfold removeSettings
  cases hs : s.pSettingsDir with
  | none =>
    obtain ⟨tree, root, set⟩ := s
    cases hs
    rfl
  | some d =>
    dsimp only
    rw [foldl_remove, settingsKeys, removeAll_append]
    rfl

theorem removeRoot_tree (s : ProcFs) :
    s.removeRoot.tree = (s.removeAll (rootKeys s.pRootDir)).tree := by
  unfold removeRoot
  cases s.pRootDir <;> rfl

/-- Removing by name looks at the tree alone. -/
theorem removeAll_tree_congr {s' : ProcFs} (h : s'.tree = s.tree) (ks : Keys) :
    (s'.removeAll ks).tree = (s.removeAll ks).tree := by
  induction ks generalizing s s' with
  | nil => exact h
  | cons k ks ih =>
    refine ih ?_
    dsimp only [remove]
    rw [h]

/-- **What `RemoveProcFs` removes.** -/
theorem removeProcFs_tree (t : DevSettings) (s : ProcFs) : (s.removeProcFs t).tree
    = (s.removeAll (settingsKeys t s.pSettingsDir ++ rootKeys s.pRootDir)).tree := by
  rw [removeProcFs, removeRoot_tree, removeAll_append, removeSettings_eq]
  dsimp only
  rw [removeAll_pRootDir]
  refine removeAll_tree_congr ?_ _
  rfl

end Keys

/-! ## What is made and what is removed -/

section Install

variable {t : DevSettings} {s : ProcFs} {addr : ℕ → ℕ} {tree : List ProcEntry}

theorem devices_eq (t : DevSettings) : devices t = List.range' 1 15 := by
  have h : ∀ u, (getDeviceSettings t u).isSome = decide (u < 16) := by
    intro u
    unfold getDeviceSettings
    split <;> simp [*]
  rw [devices]
  simp only [h]
  decide

theorem create_of_eq_zero {a : ℕ} (h : a = 0) (n : List Char) (p : Option ProcEntry) :
    create a n p = none := if_pos h

theorem create_of_ne_zero {a : ℕ} (h : a ≠ 0) (n : List Char) (p : Option ProcEntry) :
    create a n p = some ⟨a, n, dirAddr p⟩ := if_neg h

/-- The files of the devices that could be made. -/
def deviceFiles (addr : ℕ → ℕ) (d : ProcEntry) (us : List ℕ) : List ProcEntry :=
  (us.filter (fun u => addr (4 + u) ≠ 0)).map (fun u => ⟨addr (4 + u), deviceName u, d.addr⟩)

/-- The loop over `device_xx` of `InstallProcFs`. -/
theorem foldl_link {d : ProcEntry} (hd : s.pSettingsDir = some d) (us : List ℕ) :
    us.foldl (fun s u => s.link (create (addr (4 + u)) (deviceName u) s.pSettingsDir)) s
      = { s with tree := (deviceFiles addr d us).reverse ++ s.tree } := by
  induction us generalizing s with
  | nil => rfl
  | cons u us ih =>
    obtain ⟨tree, root, set⟩ := s
    cases hd
    rw [List.foldl_cons, ih (s := ProcFs.link _ _) rfl, deviceFiles, deviceFiles]
    by_cases hu : addr (4 + u) = 0
    · rw [create_of_eq_zero hu, List.filter_cons_of_neg (by simpa using hu)]
      rfl
    · rw [create_of_ne_zero hu, List.filter_cons_of_pos (by simpa using hu), List.map_cons,
        List.reverse_cons, List.append_assoc]
      rfl

/-- **Addresses of new entries**: no entry is there already or in a directory
there, and no two are the same. -/
structure FreshEntries (addr : ℕ → ℕ) (tree : List ProcEntry) : Prop where
  distinct : ∀ i < 20, ∀ j < 20, i ≠ j → addr i ≠ 0 → addr i ≠ addr j
  fresh : ∀ i < 20, addr i ≠ 0 → ∀ e ∈ tree, e.addr ≠ addr i ∧ e.parent ≠ addr i

/-- A tree without the two top-level entries that `RemoveProcFs` removes. -/
def NoDumper (tree : List ProcEntry) : Prop :=
  ∀ e ∈ tree, e.key ≠ ("side_dumper".toList, 0) ∧ e.key ≠ ("device_settings".toList, 0)

/-- Entries whose names are removed, but for some. -/
theorem removeProcFs_tree_of_made (s : ProcFs) (xs ys : List ProcEntry) (ks : Keys)
    (hks : settingsKeys t s.pSettingsDir ++ rootKeys s.pRootDir = ks) (ht : s.tree = xs ++ tree)
    (h : (xs.map ProcEntry.key).Nodup) (htree : ∀ e ∈ tree, e.key ∉ ks)
    (hxs : xs.filter (·.key ∉ ks) = ys) :
    (s.removeProcFs t).tree = ys ++ tree := by
  rw [removeProcFs_tree, hks, removeAll_tree ht h htree, hxs]

theorem rootKeys_notMem {r : ProcEntry} (hr : r.name = "side_dumper".toList) (hn : NoDumper tree)
    (hfresh : ∀ e ∈ tree, e.parent ≠ r.addr) : ∀ e ∈ tree, e.key ∉ rootKeys (some r) := by
  intro e he hmem
  rw [rootKeys, hr] at hmem
  simp only [List.mem_cons, List.not_mem_nil, or_false] at hmem
  rcases hmem with h | h | h
  · exact hfresh e he (congrArg Prod.snd h)
  · exact hfresh e he (congrArg Prod.snd h)
  · exact (hn e he).1 h

theorem settingsKeys_notMem {d : ProcEntry} (hd : d.name = "device_settings".toList)
    (hn : NoDumper tree)
    (hfresh : ∀ e ∈ tree, e.parent ≠ d.addr) : ∀ e ∈ tree, e.key ∉ settingsKeys t (some d) := by
  intro e he hmem
  rw [settingsKeys, hd] at hmem
  simp only [List.mem_append, List.mem_map, List.mem_cons, List.not_mem_nil, or_false] at hmem
  rcases hmem with ⟨u, -, h⟩ | h | h
  · exact hfresh e he (congrArg Prod.snd h.symm)
  · exact hfresh e he (congrArg Prod.snd h)
  · exact (hn e he).2 h

/-- The keys of the files in `device_settings`. -/
theorem map_key_deviceFiles (addr : ℕ → ℕ) (d : ProcEntry) (us : List ℕ) :
    (deviceFiles addr d us).map ProcEntry.key
    = (us.filter (fun u => addr (4 + u) ≠ 0)).map (fun u => (deviceName u, d.addr)) := by
  rw [deviceFiles, List.map_map]
  rfl

/-- The names in `device_settings` are different. -/
theorem deviceNames_nodup : ("all".toList :: (List.range' 1 15).map deviceName).Nodup := by
  decide

/-- The files in `device_settings`, those of the devices first. -/
def settingsFiles (t : DevSettings) (addr : ℕ → ℕ) (d : ProcEntry) : List ProcEntry :=
  (deviceFiles addr d (devices t)).reverse ++ (create (addr 4) "all".toList (some d)).toList

/-- They have the names that are removed. -/
theorem settingsFiles_keys {d e : ProcEntry} (he : e ∈ settingsFiles t addr d) :
    e.parent = d.addr ∧ e.key ∈ settingsKeys t (some d) := by
  rw [settingsFiles, List.mem_append, List.mem_reverse] at he
  rw [settingsKeys, List.mem_append]
  rcases he with he | he
  · rw [deviceFiles, List.mem_map] at he
    obtain ⟨u, hu, rfl⟩ := he
    exact ⟨rfl, .inl (List.mem_map.mpr ⟨u, List.mem_of_mem_filter hu, rfl⟩)⟩
  · rw [create] at he
    split at he
    · cases he
    · cases List.mem_singleton.mp he
      exact ⟨rfl, .inr List.mem_cons_self⟩

theorem settingsFiles_nodup (t : DevSettings) (addr : ℕ → ℕ) (d : ProcEntry) :
    ((settingsFiles t addr d).map ProcEntry.key).Nodup := by
  have hnames := (List.nodup_cons.mp deviceNames_nodup)
  have hdevs : ((deviceFiles addr d (devices t)).map ProcEntry.key).Nodup := by
    rw [map_key_deviceFiles, devices_eq]
    refine List.Nodup.sublist (List.filter_sublist.map _) ?_
    have h :=
      List.Nodup.map (f := fun n => (n, d.addr)) (fun _ _ h => congrArg Prod.fst h) hnames.2
    rwa [List.map_map] at h
  rw [settingsFiles, List.map_append, List.map_reverse, List.nodup_append]
  refine ⟨List.nodup_reverse.mpr hdevs, ?_, fun k hk k' hk' heq => ?_⟩
  · rw [create]
    split
    · exact List.nodup_nil
    · exact List.nodup_singleton _
  · rw [List.mem_reverse, map_key_deviceFiles, devices_eq, List.mem_map] at hk
    obtain ⟨u, hu, rfl⟩ := hk
    rw [create] at hk'
    split at hk'
    · cases hk'
    · rw [← heq] at hk'
      have hall : deviceName u = "all".toList := congrArg Prod.fst (List.mem_singleton.mp hk')
      exact hnames.1 (hall ▸ List.mem_map_of_mem (List.mem_of_mem_filter hu))

/-- When everything has been made the entry `device_settings` is left, since the
parent it is looked up with is not the one it has. -/
theorem removeProcFs_allMade {d : ProcEntry} (s : ProcFs) (hf : FreshEntries addr tree)
    (hn : NoDumper tree)
    (h₀ : addr 0 ≠ 0) (h₃ : addr 3 ≠ 0) (hd : ⟨addr 3, "device_settings".toList, addr 0⟩ = d)
    (hset : s.pSettingsDir = some d) (hroot : s.pRootDir = some ⟨addr 0, "side_dumper".toList, 0⟩)
    (ht : s.tree = settingsFiles t addr d ++ [d, ⟨addr 2, "disabled".toList, addr 0⟩,
      ⟨addr 1, "enabled".toList, addr 0⟩, ⟨addr 0, "side_dumper".toList, 0⟩] ++ tree) :
    (s.removeProcFs t).tree = d :: tree := by
  have h₃₀ : addr 3 ≠ addr 0 := hf.distinct 3 (by decide) 0 (by decide) (by decide) h₃
  have hdname : d.name = "device_settings".toList := by rw [← hd]
  have hdaddr : d.addr = addr 3 := by rw [← hd]
  have hdkey : d.key = ("device_settings".toList, addr 0) := by rw [← hd]; rfl
  refine removeProcFs_tree_of_made s _ [d] (settingsKeys t (some d)
    ++ rootKeys (some ⟨addr 0, "side_dumper".toList, 0⟩)) (by rw [hset, hroot]) ht ?_
      (fun e he hmem => ?_) ?_
  · rw [List.map_append, List.nodup_append]
    refine ⟨settingsFiles_nodup t addr d, by simp [ProcEntry.key, ← hd, h₀],
      fun k hk k' hk' heq => ?_⟩
    obtain ⟨e, he, rfl⟩ := List.mem_map.mp hk
    -- the files of `device_settings` have another parent than the rest
    have hparent : k'.2 = addr 3 := by rw [← heq, ← hdaddr]; exact (settingsFiles_keys he).1
    simp only [List.map_cons, List.map_nil, List.mem_cons, List.not_mem_nil, or_false,
      hdkey] at hk'
    rcases hk' with rfl | rfl | rfl | rfl
    · exact h₃₀ hparent.symm
    · exact h₃₀ hparent.symm
    · exact h₃₀ hparent.symm
    · exact h₃ hparent.symm
  · rcases List.mem_append.mp hmem with h | h
    · exact settingsKeys_notMem hdname hn
        (fun e he => hdaddr ▸ (hf.fresh 3 (by decide) h₃ e he).2) e he h
    · exact rootKeys_notMem rfl hn (fun e he => (hf.fresh 0 (by decide) h₀ e he).2) e he h
  · have hfiles : (settingsFiles t addr d).filter (fun e => e.key ∉ settingsKeys t (some d)
        ++ rootKeys (some ⟨addr 0, "side_dumper".toList, 0⟩)) = [] := by
      rw [List.filter_eq_nil_iff]
      intro e he
      rw [decide_eq_true_iff, not_not]
      exact List.mem_append_left _ (settingsFiles_keys he).2
    have hdkeys : d.key ∉ settingsKeys t (some d) ++ rootKeys
        (some ⟨addr 0, "side_dumper".toList, 0⟩) := by
      rw [settingsKeys, hdkey, hdaddr, hdname]
      simp [rootKeys, h₃₀.symm, h₀]
      exact fun _ _ _ => h₃₀
    rw [List.filter_append, hfiles, List.nil_append,
      List.filter_cons_of_pos (by simpa using hdkeys)]
    congr 1
    simp [rootKeys, ProcEntry.key]

/-- **What is left after `RemoveProcFs`**: the entry `device_settings`, when it
was made. -/
theorem removeProcFs_installProcFs (t : DevSettings) (hf : FreshEntries addr tree)
    (hn : NoDumper tree) :
    (removeProcFs t (installProcFs t addr ⟨tree, none, none⟩).1).tree
      = if addr 0 = 0 ∨ addr 1 = 0 ∨ addr 2 = 0 ∨ addr 3 = 0 then tree
        else ⟨addr 3, "device_settings".toList, addr 0⟩ :: tree := by
  by_cases h₀ : addr 0 = 0
  · rw [if_pos (.inl h₀), installProcFs, create_of_eq_zero h₀]
    rfl
  have hroot := rootKeys_notMem (r := ⟨addr 0, "side_dumper".toList, 0⟩) rfl hn
    (fun e he => (hf.fresh 0 (by decide) h₀ e he).2)
  -- before `device_settings` everything is removed by its name
  have hearly : ∀ s : ProcFs, ∀ xs : List ProcEntry, s.pSettingsDir = none →
      s.pRootDir = some ⟨addr 0, "side_dumper".toList, 0⟩ → s.tree = xs ++ tree →
      (xs.map ProcEntry.key).Nodup →
        xs.filter (·.key ∉ rootKeys (some ⟨addr 0, "side_dumper".toList, 0⟩)) = [] →
      (s.removeProcFs t).tree = tree := by
    intro s xs hset hr ht hnodup hxs
    exact removeProcFs_tree_of_made s xs _ _ (by rw [hset, hr]; rfl) ht hnodup hroot hxs
  rw [installProcFs, create_of_ne_zero h₀]
  dsimp only
  rw [if_neg (by simp)]
  by_cases h₁ : addr 1 = 0
  · refine Eq.trans ?_ (if_pos (.inr (.inl h₁))).symm
    rw [create_of_eq_zero h₁, if_pos rfl]
    exact hearly _ [⟨addr 0, "side_dumper".toList, 0⟩] rfl rfl rfl (by simp)
      (by simp [rootKeys, ProcEntry.key])
  rw [create_of_ne_zero h₁, if_neg (by simp)]
  by_cases h₂ : addr 2 = 0
  · refine Eq.trans ?_ (if_pos (.inr (.inr (.inl h₂)))).symm
    rw [create_of_eq_zero h₂, if_pos rfl]
    exact hearly _ [⟨addr 1, "enabled".toList, addr 0⟩, ⟨addr 0, "side_dumper".toList, 0⟩] rfl rfl
      rfl
      (by simp [ProcEntry.key]) (by simp [rootKeys, ProcEntry.key])
  rw [create_of_ne_zero h₂, if_neg (by simp)]
  by_cases h₃ : addr 3 = 0
  · refine Eq.trans ?_ (if_pos (.inr (.inr (.inr h₃)))).symm
    rw [create_of_eq_zero h₃, if_pos rfl]
    exact hearly _ [⟨addr 2, "disabled".toList, addr 0⟩, ⟨addr 1, "enabled".toList, addr 0⟩,
      ⟨addr 0, "side_dumper".toList, 0⟩] rfl rfl rfl (by simp [ProcEntry.key])
        (by simp [rootKeys, ProcEntry.key])
  refine Eq.trans ?_ (if_neg (by simp [h₀, h₁, h₂, h₃])).symm
  rw [create_of_ne_zero h₃, if_neg (by simp), foldl_link rfl]
  refine removeProcFs_allMade _ hf hn h₀ h₃ rfl rfl rfl ?_
  rw [settingsFiles, List.append_assoc, List.append_assoc]
  rfl

/-- **When `RemoveProcFs` undoes `InstallProcFs`**: exactly when one of the
first four entries could not be made. -/
theorem removeProcFs_undoes_iff (t : DevSettings) (hf : FreshEntries addr tree)
    (hn : NoDumper tree) :
    (removeProcFs t (installProcFs t addr ⟨tree, none, none⟩).1).tree = tree
      ↔ addr 0 = 0 ∨ addr 1 = 0 ∨ addr 2 = 0 ∨ addr 3 = 0 := by
  rw [removeProcFs_installProcFs t hf hn]
  split
  · exact iff_of_true rfl ‹_›
  · refine iff_of_false (fun h => ?_) ‹_›
    have hlen := congrArg List.length h
    rw [List.length_cons] at hlen
    omega

/-- Every entry is made in an empty tree, and `device_settings` stays. -/
theorem removeProcFs_not_undoes : ¬ ∀ (t : DevSettings) (addr : ℕ → ℕ) (tree : List ProcEntry),
    FreshEntries addr tree → NoDumper tree →
    (removeProcFs t (installProcFs t addr ⟨tree, none, none⟩).1).tree = tree := by
  intro h
  have hfresh : FreshEntries (fun k => 100 + k) [] :=
    ⟨fun i _ j _ hij _ h => hij (Nat.add_left_cancel h),
    fun i _ _ e he => absurd he List.not_mem_nil⟩
  have htree :=
    h (fun _ => ⟨⟨0, 0⟩, 0, 0, 0⟩) _ [] hfresh (fun e he => absurd he List.not_mem_nil)
  rw [removeProcFs_installProcFs _ hfresh (fun e he => absurd he List.not_mem_nil),
    if_neg (by decide)] at htree
  cases htree

/-- The directory `device_settings` cannot be made. -/
theorem removeProcFs_undoes_early : (removeProcFs (fun _ => ⟨⟨0, 0⟩, 0, 0, 0⟩) (installProcFs
    (fun _ => ⟨⟨0, 0⟩, 0, 0, 0⟩) (fun k => if k = 3 then 0 else 100 + k) ⟨[⟨1, "usb".toList, 0⟩],
      none, none⟩).1).tree
      = [⟨1, "usb".toList, 0⟩] := by
  refine (removeProcFs_undoes_iff _ ⟨?_, ?_⟩ ?_).mpr (.inr (.inr (.inr rfl)))
  · decide
  · decide
  · intro e he
    cases List.mem_singleton.mp he
    decide

end Install

end ProcFs
