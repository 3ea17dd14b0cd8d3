import SideDumper.TdLinks
import SideDumper.TdOwners

/-!
# The lists of TDs

Every TD of a request that has been queued and not been settled is on one list:
the queue of its ED, the done queue of the controller, `hcca.done_head`, or one
of the two lists the interrupt routine works on. The TDs of a request that are
on lists and those that have been counted are together all its TDs. `Listed` says
so, and here is one rule for each thing that happens to a TD.
-/

/-- **The lists a TD can be on.** -/
inductive TdList
  /-- The queue of an ED, from `hwHeadP` to `hwTailP`. -/
  | queue (e : EdPtr)
  /-- The done queue of the controller. -/
  | reg
  /-- `hcca.done_head`. -/
  | done
  /-- What `dl_reverse_done_list` has left. -/
  | todo
  /-- What `dl_done_list` has left. -/
  | rev
deriving DecidableEq

namespace TdList

/-- The link field a list runs through. -/
def next (n : TdLinks) : TdList → TdPtr → TdPtr
  | .rev => n.dl
  | _ => n.next

/-- Where a list begins. -/
def start (n : TdLinks) (todo rev : TdPtr) : TdList → TdPtr
  | .queue e => n.head e
  | .reg => n.reg
  | .done => n.done
  | .todo => todo
  | .rev => rev

/-- Where a list ends. -/
def stop (l : Ledger) : TdList → TdPtr
  | .queue e => l.tail e
  | _ => 0

/-- Whether a list can have TDs of the requests of an ED. -/
def serves (e : EdPtr) : TdList → Bool
  | .queue x => x = e
  | _ => true

/-- The number of TDs of a URB on a list. -/
def of (urb : TdPtr → UrbPtr) (u : UrbPtr) (ts : List TdPtr) : ℕ := ts.countP (fun t => urb t = u)

/-- **The TDs of a URB that are on lists**: on the queue of its ED, or retired by the
controller and not yet settled. -/
def outstanding (urb : TdPtr → UrbPtr) (q : TdList → List TdPtr) (e : EdPtr) (u : UrbPtr) : ℕ :=
  of urb u (q (.queue e)) + (of urb u (q .reg) + of urb u (q .done) + of urb u (q .todo) + of
    urb u (q .rev))

section Outstanding

variable {urb urb' : TdPtr → UrbPtr} {q : TdList → List TdPtr} {e : EdPtr} {u : UrbPtr}
    {i : TdList} {t : TdPtr}
  {ts : List TdPtr}

theorem of_cons : of urb u (t :: ts) = of urb u ts + if urb t = u then 1 else 0 := by
  rw [of, List.countP_cons]
  by_cases h : urb t = u <;> simp [h, of]

theorem of_append {ts' : List TdPtr} : of urb u (ts ++ ts') = of urb u ts + of urb u ts' :=
  List.countP_append

theorem of_pos (urb : TdPtr → UrbPtr) (ht : t ∈ ts) : 0 < of urb (urb t) ts :=
  List.countP_pos_iff.mpr ⟨t, ht, by simp⟩

theorem of_congr (h : ∀ t ∈ ts, urb' t = urb t) : of urb' u ts = of urb u ts :=
  List.countP_congr (fun t ht => by simp [h t ht])

/-- **One list changes.** -/
theorem outstanding_update (urb : TdPtr → UrbPtr) (q : TdList → List TdPtr) (u : UrbPtr)
    (ts : List TdPtr)
    (hi : i.serves e = true) :
    outstanding urb (Function.update q i ts) e u + of urb u (q i)
      = outstanding urb q e u + of urb u ts := by
  cases i with
  | queue x =>
    obtain rfl : x = e := by simpa [serves] using hi
    simp only [outstanding, Function.update_self, ne_eq, reduceCtorEq, not_false_eq_true,
      Function.update_of_ne]
    omega
  | reg | done | todo | rev =>
    simp only [outstanding, Function.update_self, ne_eq, reduceCtorEq, not_false_eq_true,
      Function.update_of_ne]
    omega

/-- A list of another ED changes. -/
theorem outstanding_update_other (hi : i.serves e = false) :
    outstanding urb (Function.update q i ts) e u = outstanding urb q e u := by
  cases i with
  | queue x =>
    have hx : TdList.queue e ≠ .queue x := by
      rintro ⟨⟩
      simp [serves] at hi
    simp only [outstanding, Function.update_of_ne hx, ne_eq, reduceCtorEq, not_false_eq_true,
      Function.update_of_ne]
  | reg | done | todo | rev => cases hi

theorem outstanding_congr (h : ∀ i, ∀ t ∈ q i, urb' t = urb t) :
    outstanding urb' q e u = outstanding urb q e u := by
  simp only [outstanding, of_congr (h _)]

/-- A TD on a list that serves the ED is outstanding. -/
theorem outstanding_pos (urb : TdPtr → UrbPtr) (ht : t ∈ q i) (hi : i.serves e = true) :
    0 < outstanding urb q e (urb t) := by
  have hpos := of_pos urb ht
  cases i with
  | queue x =>
    obtain rfl : x = e := by simpa [serves] using hi
    unfold outstanding
    omega
  | reg | done | todo | rev =>
    unfold outstanding
    omega

end Outstanding

end TdList

/-- **The TDs on lists.** The TDs of a URB that are on lists belong to its private
part, among the first `fill` of them; they and those that have been counted are
`fill` together. -/
structure Listed (l : Ledger) (n : TdLinks) (todo rev : TdPtr) (fill : UrbPtr → ℕ)
    (q : TdList → List TdPtr) :
    Prop where
  threads : Threads (TdList.next n) (TdList.start n todo rev) (TdList.stop l) q
  part : ∀ i, ∀ t ∈ q i, ∃ h, l.priv (n.urb t) = some h ∧ n.ed t = h.ed ∧
    ∃ k < fill (n.urb t), h.td k = t
  queue : ∀ e, ∀ t ∈ q (.queue e), n.ed t = e
  /-- An ED that is `ED_NEW` has no queue. -/
  fresh : ∀ e, l.state e = .edNew → q (.queue e) = []
  count : ∀ u h, l.priv u = some h →
    n.cnt u + TdList.outstanding n.urb q h.ed u = fill u ∧ fill u ≤ h.length ∧ h.length < 65536

namespace Listed

variable {l l' : Ledger} {n n' : TdLinks} {todo todo' rev rev' : TdPtr} {fill fill' : UrbPtr → ℕ}
  {q : TdList → List TdPtr} {u : UrbPtr} {h : Holding} {i : TdList} {t : TdPtr} {e : EdPtr}

/-- The list a TD is on serves the ED of its URB. -/
theorem serves (hl : Listed l n todo rev fill q) (ht : t ∈ q i) (hp : l.priv (n.urb t) = some h) :
    i.serves h.ed = true := by
  cases i with
  | queue e =>
    obtain ⟨h', hp', hed, -⟩ := hl.part _ t ht
    rw [hp] at hp'
    cases hp'
    have he := hl.queue e t ht
    simp [TdList.serves, ← he, hed]
  | reg | done | todo | rev => rfl

/-- **A URB without outstanding TDs has none on any list.** -/
theorem notMem_of_settled (hl : Listed l n todo rev fill q) (hp : l.priv u = some h)
    (h0 : TdList.outstanding n.urb q h.ed u = 0) : ∀ i, ∀ t ∈ q i, n.urb t ≠ u := by
  rintro i t ht rfl
  have hpos := TdList.outstanding_pos n.urb ht (hl.serves ht hp)
  omega

/-- A URB without a private part has no TD on any list. -/
theorem notMem_of_none (hl : Listed l n todo rev fill q) (hp : l.priv u = none) :
    ∀ i, ∀ t ∈ q i, n.urb t ≠ u := by
  rintro i t ht rfl
  obtain ⟨h', hp', -⟩ := hl.part i t ht
  rw [hp] at hp'
  cases hp'

theorem outstanding_of_notMem (h0 : ∀ i, ∀ t ∈ q i, n.urb t ≠ u) :
    TdList.outstanding n.urb q e u = 0 := by
  have hof : ∀ i, TdList.of n.urb u (q i) = 0 := fun i =>
    List.countP_eq_zero.mpr (fun t ht => by simpa using h0 i t ht)
  simp only [TdList.outstanding, hof]

/-- **The lists stay.** Private parts without TDs on lists may come and go. -/
theorem keep (hl : Listed l n todo rev fill q)
    (hthreads : Threads (TdList.next n') (TdList.start n' todo' rev') (TdList.stop l') q)
    (hed : n'.ed = n.ed) (hurb : n'.urb = n.urb) (hfresh : ∀ e, l'.state e = .edNew →
      q (.queue e) = [])
    (hpart : ∀ i, ∀ t ∈ q i, ∀ h, l.priv (n.urb t) = some h →
      ∃ h', l'.priv (n.urb t) = some h' ∧ h'.ed = h.ed ∧ h'.td = h.td ∧
        fill' (n.urb t) = fill (n.urb t))
    (hcount : ∀ u h', l'.priv u = some h' →
      (∃ h, l.priv u = some h ∧ h.ed = h'.ed ∧ h.length = h'.length ∧ n'.cnt u = n.cnt u ∧
        fill' u = fill u) ∨
        (∀ i, ∀ t ∈ q i, n.urb t ≠ u) ∧ n'.cnt u = fill' u ∧ fill' u ≤ h'.length ∧
          h'.length < 65536) :
    Listed l' n' todo' rev' fill' q where
  threads := hthreads
  part := fun i t ht => by
    obtain ⟨h, hp, he, k, hk, htd⟩ := hl.part i t ht
    obtain ⟨h', hp', he', htd', hfill⟩ := hpart i t ht h hp
    rw [hurb, hed]
    exact ⟨h', hp', he.trans he'.symm, k, hfill ▸ hk, by rw [htd', htd]⟩
  queue := fun e t ht => by
    rw [hed]
    exact hl.queue e t ht
  fresh := hfresh
  count := fun u h' hp' => by
    rw [hurb]
    obtain ⟨h, hp, he, hlen, hcnt, hfill⟩ | ⟨hnone, hcnt, hle, hlt⟩ := hcount u h' hp'
    · obtain ⟨hsum, hle, hlt⟩ := hl.count u h hp
      rw [hcnt, hfill, ← he, ← hlen]
      exact ⟨hsum, hle, hlt⟩
    · rw [outstanding_of_notMem hnone, hcnt]
      exact ⟨rfl, hle, hlt⟩

end Listed

namespace TdList

variable {l : Ledger} {n n' : TdLinks} {todo rev : TdPtr} {i : TdList} {x : TdPtr}

theorem next_congr (hn : n'.next x = n.next x) (hd : n'.dl x = n.dl x) :
    next n' i x = next n i x := by
  cases i with
  | rev => exact hd
  | queue | reg | done | todo => exact hn

/-- Lists end where they have ended as long as the dummy TDs stay. -/
theorem stop_congr {l' : Ledger} (h : l'.tail = l.tail) : stop l' = stop l := by
  funext i
  cases i with
  | queue e => exact congrFun h e
  | reg | done | todo | rev => rfl

end TdList

namespace Listed

variable {l l' : Ledger} {n n' : TdLinks} {todo todo' rev rev' : TdPtr} {fill fill' : UrbPtr → ℕ}
  {q : TdList → List TdPtr} {u : UrbPtr} {h : Holding} {i : TdList} {t : TdPtr} {e : EdPtr}
    {ts rest : List TdPtr}

section Places

variable (hl : Listed l n todo rev fill q) (ho : l.Owners)
include hl ho

theorem ne_zero (ht : t ∈ q i) : t ≠ 0 := by
  obtain ⟨h, hp, -, k, hk, rfl⟩ := hl.part i t ht
  exact ho.full _ h hp k (hk.trans_le (hl.count _ h hp).2.1)

/-- **A TD on a list is a TD of one request only**, and at one place of it. -/
theorem place_unique {k : ℕ} (ht : t ∈ q i) (hp : l.priv u = some h) (hk : k < h.length)
    (htd : h.td k = t) :
    n.urb t = u ∧ k < fill u := by
  obtain ⟨h', hp', -, k', hk', htd'⟩ := hl.part i t ht
  have hplace : ∀ {z : UrbPtr} {x : Holding} {j : ℕ}, l.priv z = some x → j < x.length →
      x.td j = t →
      l.tdAt (.slot z j) = some t := by
    intro z x j hz hj hx
    rw [Ledger.tdAt, hz, Option.bind_some, if_pos hj, hx]
  have hsame := ho.owned.single _ _ t (hplace hp' (hk'.trans_le (hl.count _ h' hp').2.1) htd')
    (hplace hp hk htd)
  obtain ⟨hu, rfl⟩ := TdPlace.slot.inj hsame
  exact ⟨hu, hu ▸ hk'⟩

/-- The dummy TD of an ED is on no list. -/
theorem tail_notMem (hnew : l.state e ≠ .edNew) : l.tail e ∉ q i := by
  intro ht
  obtain ⟨h, hp, -, k, hk, htd⟩ := hl.part i _ ht
  have hslot : l.tdAt (.slot (n.urb (l.tail e)) k) = some (l.tail e) := by
    rw [Ledger.tdAt, hp, Option.bind_some, if_pos (hk.trans_le (hl.count _ h hp).2.1), htd]
  have hdummy : l.tdAt (.dummy e) = some (l.tail e) := if_pos hnew
  cases ho.owned.single _ _ _ hslot hdummy

/-- The TD of a request that is filled next is on no list. -/
theorem slot_notMem {k : ℕ} (hp : l.priv u = some h) (hk : k < h.length) (hfill : fill u = k) :
    h.td k ∉ q i := by
  intro hm
  have hlt := (hl.place_unique ho hm hp hk rfl).2
  omega

end Places

/-- A TD is taken off a list. -/
theorem outstanding_take (hl : Listed l n todo rev fill q) (ht : (q i).Perm (t :: ts))
    (hp : l.priv u = some h) :
    TdList.outstanding n.urb q h.ed u
      = TdList.outstanding n.urb (Function.update q i ts) h.ed u
        + if n.urb t = u then 1 else 0 := by
  have hof : TdList.of n.urb u (q i) = TdList.of n.urb u ts + if n.urb t = u then 1 else 0 := by
    rw [← TdList.of_cons]
    exact ht.countP_eq _
  by_cases hi : i.serves h.ed = true
  · have hup := TdList.outstanding_update n.urb q u ts hi
    omega
  · have hne : n.urb t ≠ u := by
      rintro rfl
      exact hi (hl.serves (ht.symm.subset List.mem_cons_self) hp)
    rw [if_neg hne, TdList.outstanding_update_other (Bool.eq_false_iff.mpr hi)]
    rfl

/-- A TD is put at the front of a list that serves all EDs. -/
theorem outstanding_put (urb : TdPtr → UrbPtr) (q : TdList → List TdPtr) (t : TdPtr)
    (u : UrbPtr) (e : EdPtr)
    (hi : ∀ e, i.serves e = true) :
    TdList.outstanding urb (Function.update q i (t :: q i)) e u
      = TdList.outstanding urb q e u + if urb t = u then 1 else 0 := by
  have hup := TdList.outstanding_update urb q u (t :: q i) (hi e)
  rw [TdList.of_cons] at hup
  omega

/-- **Lists get shorter, or TDs go from one to another.** -/
theorem reorder (hl : Listed l n todo rev fill q) {q' : TdList → List TdPtr}
    (hthreads : Threads (TdList.next n') (TdList.start n' todo' rev') (TdList.stop l) q')
    (hed : n'.ed = n.ed) (hurb : n'.urb = n.urb) (hsub : ∀ i, ∀ t ∈ q' i, ∃ j, t ∈ q j)
    (hqueue : ∀ e, ∀ t ∈ q' (.queue e), t ∈ q (.queue e))
    (hcount : ∀ u h, l.priv u = some h → n'.cnt u + TdList.outstanding n.urb q' h.ed u
      = n.cnt u + TdList.outstanding n.urb q h.ed u) :
    Listed l n' todo' rev' fill q' where
  threads := hthreads
  part := fun i t ht => by
    obtain ⟨j, hj⟩ := hsub i t ht
    rw [hurb, hed]
    exact hl.part j t hj
  queue := fun e t ht => by
    rw [hed]
    exact hl.queue e t (hqueue e t ht)
  fresh := fun e he => List.eq_nil_iff_forall_not_mem.mpr (fun t ht => by
    have hm := hqueue e t ht
    rw [hl.fresh e he] at hm
    cases hm)
  count := fun u h hp => by
    rw [hurb, hcount u h hp]
    exact hl.count u h hp

/-- **The controller retires the first TD of a queue.** -/
theorem retire (hl : Listed l n todo rev fill q) (ho : l.Owners) (hq : q (.queue e) = t :: rest) :
    Listed l { n with
        head := Function.update n.head e (n.next t)
        next := Function.update n.next t n.reg
        reg := t } todo rev fill
      (Function.update (Function.update q (.queue e) rest) .reg (t :: q .reg)) := by
  have hmem : t ∈ q (.queue e) := by
    rw [hq]
    exact List.mem_cons_self
  have hrest : ∀ x ∈ rest, x ∈ q (.queue e) := by
    rw [hq]
    exact fun x hx => List.mem_cons_of_mem _ hx
  have htake : Threads (TdList.next n)
      (TdList.start { n with head := Function.update n.head e (n.next t) } todo rev)
        (TdList.stop l)
      (Function.update q (.queue e) rest) := by
    refine hl.threads.drop [t] hq (Function.update_self _ _ _) (fun j hj => ?_)
    cases j with
    | queue x => exact Function.update_of_ne (fun h => hj (congrArg TdList.queue h)) _ _
    | reg | done | todo | rev => rfl
  have hreg : Function.update q (.queue e) rest .reg = q .reg :=
    Function.update_of_ne (by simp) _ _
  refine hl.reorder ?_ rfl rfl (fun i x hx => ?_) (fun z x hx => ?_) (fun u h hp => ?_)
  · rw [← hreg]
    refine htake.push (hl.threads.drop_notMem hq) (hl.ne_zero ho hmem) rfl (fun j hj => ?_)
      (Function.update_self _ _ _)
      (fun j y hy => TdList.next_congr (Function.update_of_ne hy _ _) rfl)
    cases j with
    | reg => exact absurd rfl hj
    | queue | done | todo | rev => rfl
  · rw [Function.update_apply] at hx
    split at hx
    · obtain rfl | hx := List.mem_cons.mp hx
      · exact ⟨_, hmem⟩
      · exact ⟨_, hx⟩
    · exact ⟨i, Threads.mem_update_of_subset hrest hx⟩
  · rw [Function.update_of_ne (by simp)] at hx
    exact Threads.mem_update_of_subset hrest hx
  · have hput := outstanding_put n.urb (Function.update q (.queue e) rest) t u h.ed (i := .reg)
      (fun _ => rfl)
    rw [hreg] at hput
    have htk := hl.outstanding_take (.of_eq hq) hp
    dsimp only
    omega

/-- One of the lists of what is retired takes the place of another one. -/
theorem transfer {j : TdList} (hl : Listed l n todo rev fill q) (hi : ∀ e, i ≠ .queue e)
    (hj : ∀ e, j ≠ .queue e)
    (hij : i ≠ j) (hempty : q j = []) (hnext : TdList.next n i = TdList.next n j)
    (hlinks : (n'.next, n'.dl, n'.ed, n'.urb, n'.cnt) = (n.next, n.dl, n.ed, n.urb, n.cnt))
    (hstart : TdList.start n' todo' rev' j = TdList.start n todo rev i)
    (hzero : TdList.start n' todo' rev' i = 0)
    (hother : ∀ k, k ≠ i → k ≠ j → TdList.start n' todo' rev' k = TdList.start n todo rev k) :
    Listed l n' todo' rev' fill (Function.update (Function.update q i []) j (q i)) := by
  simp only [Prod.mk.injEq] at hlinks
  obtain ⟨hn, hdl, hed, hurb, hcnt⟩ := hlinks
  have hstop : ∀ k, (∀ e, k ≠ .queue e) → TdList.stop l k = 0 ∧ ∀ e, k.serves e = true := by
    intro k hk
    cases k with
    | queue e => exact absurd rfl (hk e)
    | reg | done | todo | rev => exact ⟨rfl, fun _ => rfl⟩
  have hnx : TdList.next n' = TdList.next n := by
    funext k x
    exact TdList.next_congr (congrFun hn x) (congrFun hdl x)
  have hback : ∀ k, ∀ x ∈ Function.update (Function.update q i []) j (q i) k, k = j ∧ x ∈ q i ∨
      x ∈ q k := by
    intro k x hx
    rw [Function.update_apply] at hx
    split at hx
    · exact .inl ⟨‹_›, hx⟩
    · exact .inr (Threads.mem_update_of_subset (by simp) hx)
  refine hl.reorder ?_ hed hurb (fun k x hx => ?_) (fun z x hx => ?_) (fun u h _ => ?_)
  · rw [hnx]
    exact hl.threads.transfer ((hstop i hi).1.trans (hstop j hj).1.symm) hnext hstart
      (hzero.trans (hstop i hi).1.symm) hother
  · obtain ⟨-, hx⟩ | hx := hback k x hx
    · exact ⟨_, hx⟩
    · exact ⟨_, hx⟩
  · obtain ⟨hk, -⟩ | hx := hback _ x hx
    · exact absurd hk.symm (hj z)
    · exact hx
  · have h₁ := TdList.outstanding_update n.urb q u [] ((hstop i hi).2 h.ed)
    have h₂ :=
      TdList.outstanding_update n.urb (Function.update q i []) u (q i) ((hstop j hj).2 h.ed)
    rw [Function.update_of_ne hij.symm, hempty] at h₂
    rw [hcnt]
    simp only [TdList.of, List.countP_nil] at h₁ h₂ ⊢
    omega

/-- **A TD is turned around.** -/
theorem reverse (hl : Listed l n todo rev fill q) (htodo : todo ≠ 0) :
    Listed l { n with dl := Function.update n.dl todo rev } (n.next todo) todo fill
      (Function.update (Function.update q .todo (q .todo).tail) .rev (todo :: q .rev)) := by
  obtain ⟨rest, hq⟩ : ∃ rest, q .todo = todo :: rest := (hl.threads.walk .todo).cons_of_ne htodo
  have hmem : todo ∈ q .todo := by
    rw [hq]
    exact List.mem_cons_self
  have hrest : ∀ x ∈ rest, x ∈ q .todo := by
    rw [hq]
    exact fun x hx => List.mem_cons_of_mem _ hx
  rw [hq, List.tail_cons]
  have htake : Threads (TdList.next n) (TdList.start n (n.next todo) rev) (TdList.stop l)
      (Function.update q .todo rest) := by
    refine hl.threads.drop [todo] hq rfl (fun j hj => ?_)
    cases j with
    | todo => exact absurd rfl hj
    | queue | reg | done | rev => rfl
  have hrev : Function.update q .todo rest .rev = q .rev := Function.update_of_ne (by simp) _ _
  refine hl.reorder ?_ rfl rfl (fun i x hx => ?_) (fun z x hx => ?_) (fun u h hp => ?_)
  · rw [← hrev]
    refine htake.push (hl.threads.drop_notMem hq) htodo rfl (fun j hj => ?_)
      (Function.update_self _ _ _)
      (fun j y hy => TdList.next_congr rfl (Function.update_of_ne hy _ _))
    cases j with
    | rev => exact absurd rfl hj
    | queue | reg | done | todo => rfl
  · rw [Function.update_apply] at hx
    split at hx
    · obtain rfl | hx := List.mem_cons.mp hx
      · exact ⟨_, hmem⟩
      · exact ⟨_, hx⟩
    · exact ⟨i, Threads.mem_update_of_subset hrest hx⟩
  · rw [Function.update_of_ne (by simp), Function.update_of_ne (by simp)] at hx
    exact hx
  · have hput := outstanding_put n.urb (Function.update q .todo rest) todo u h.ed (i := .rev)
      (fun _ => rfl)
    rw [hrev] at hput
    have htk := hl.outstanding_take (.of_eq hq) hp
    dsimp only
    omega

/-- **A private part goes** that has no TD on a list. -/
theorem drop_priv (hl : Listed l n todo rev fill q) (h0 : ∀ i, ∀ t ∈ q i, n.urb t ≠ u)
    (htail : l'.tail = l.tail)
    (hstate : l'.state = l.state) (hpriv : l'.priv = Function.update l.priv u none) :
    Listed l' { n with cnt := Function.update n.cnt u 0 } todo rev fill q := by
  refine hl.keep ?_ rfl rfl (fun e he => hl.fresh e (hstate ▸ he)) (fun i t ht h hp => ?_)
    (fun z h' hz => ?_)
  · rw [TdList.stop_congr htail]
    exact hl.threads.congr (fun i => by cases i <;> rfl) (fun _ => rfl)
      (fun i t _ => TdList.next_congr rfl rfl)
  · refine ⟨h, ?_, rfl, rfl, rfl⟩
    rw [hpriv, Function.update_of_ne (h0 i t ht)]
    exact hp
  · rw [hpriv, Function.update_apply] at hz
    split at hz
    · cases hz
    · exact .inl ⟨h', hz, rfl, rfl, Function.update_of_ne ‹_› _ _, rfl⟩

/-- **A private part goes with the last of its TDs.** -/
theorem drop_settled (hl : Listed l n todo rev fill q) (hp : l.priv u = some h)
    (hcnt : n.cnt u = h.length) (htail : l'.tail = l.tail) (hstate : l'.state = l.state)
    (hpriv : l'.priv = Function.update l.priv u none) :
    Listed l' { n with cnt := Function.update n.cnt u 0 } todo rev fill q := by
  refine hl.drop_priv (hl.notMem_of_settled hp ?_) htail hstate hpriv
  obtain ⟨hcount, hle, -⟩ := hl.count u h hp
  omega

/-- **A TD is settled**, and counted. -/
theorem settle (hl : Listed l n todo rev fill q) (ht : (q i).Perm (t :: ts))
    (hthreads : Threads (TdList.next n') (TdList.start n' todo' rev') (TdList.stop l)
      (Function.update q i ts))
    (hed : n'.ed = n.ed) (hurb : n'.urb = n.urb)
    (hcnt : n'.cnt = Function.update n.cnt (n.urb t) (n.cnt (n.urb t) + 1)) :
    Listed l n' todo' rev' fill (Function.update q i ts) := by
  have hsub : ∀ x ∈ ts, x ∈ q i := fun x hx => ht.symm.subset (List.mem_cons_of_mem _ hx)
  refine hl.reorder hthreads hed hurb (fun j x hx => ⟨j, Threads.mem_update_of_subset hsub hx⟩)
    (fun z x hx => Threads.mem_update_of_subset hsub hx) (fun u h hp => ?_)
  have htk := hl.outstanding_take ht hp
  rw [hcnt, Function.update_apply]
  by_cases hu : u = n.urb t
  · rw [if_pos hu, ← hu]
    rw [if_pos hu.symm] at htk
    omega
  · rw [if_neg hu]
    rw [if_neg (fun h => hu h.symm)] at htk
    omega

/-- The count of a URB with a TD on a list is not full yet. -/
theorem count_lt (hl : Listed l n todo rev fill q) (ht : t ∈ q i)
    (hp : l.priv (n.urb t) = some h) :
    n.cnt (n.urb t) + 1 ≤ fill (n.urb t) ∧ fill (n.urb t) ≤ h.length ∧ h.length < 65536 := by
  obtain ⟨hsum, hle, hlt⟩ := hl.count _ h hp
  have hpos := TdList.outstanding_pos n.urb ht (hl.serves ht hp)
  exact ⟨by omega, hle, hlt⟩

end Listed

/-- The link behind which the TDs `kept` of a queue end: what `td_p` points to. -/
def TdLink.after (e : EdPtr) (kept : List TdPtr) :
    TdLink := (kept.getLast?.map TdLink.next).getD (.head e)

@[simp] theorem TdLink.after_nil {e : EdPtr} : TdLink.after e [] = .head e := rfl

@[simp] theorem TdLink.after_concat {e : EdPtr} {kept : List TdPtr} {t : TdPtr} :
    TdLink.after e (kept ++ [t]) = .next t := by
  rw [TdLink.after, List.getLast?_concat]
  rfl

/-- `*td_p = v`. -/
def TdLinks.setLink (n : TdLinks) (tdP : TdLink) (v : TdPtr) : TdLinks :=
  match tdP with
  | .head e => { n with head := Function.update n.head e v }
  | .next t => { n with next := Function.update n.next t v }

theorem tdLinks_setTdLink {o : Ohci} {tdP : TdLink} {v : TdPtr} :
    (o.setTdLink tdP v).tdLinks = o.tdLinks.setLink tdP v := by
  cases tdP with
  | head e =>
    rw [Ohci.setTdLink, Ohci.tdLinks_modEd]
    rfl
  | next t =>
    rw [Ohci.setTdLink, Ohci.tdLinks_modTd_next (by intro; rfl)]
    rfl

/-- A TD that is taken off a queue leaves the way to the next one. -/
theorem exitLink_setLink {n : TdLinks} {e : EdPtr} {kept : List TdPtr} {v : TdPtr} :
    exitLink (n.setLink (.after e kept) v).next ((n.setLink (.after e kept) v).head e) kept
      = v := by
  obtain rfl | ⟨ks, y, rfl⟩ := List.eq_nil_or_concat' kept
  · exact Function.update_self _ _ _
  · rw [TdLink.after_concat, exitLink_concat]
    exact Function.update_self _ _ _

/-- The links of what is not kept are left alone. -/
theorem TdLinks.setLink_next {n : TdLinks} {e : EdPtr} {kept : List TdPtr} {v x : TdPtr}
    (hx : x ∉ kept) :
    (n.setLink (.after e kept) v).next x = n.next x := by
  obtain rfl | ⟨ks, y, rfl⟩ := List.eq_nil_or_concat' kept
  · rfl
  · rw [TdLink.after_concat]
    refine Function.update_of_ne (fun h => hx ?_) _ _
    rw [h]
    exact List.mem_append_right _ (List.mem_singleton_self y)

/-- `*td_p` is a link and nothing else. -/
theorem TdLinks.setLink_rest (n : TdLinks) (tdP : TdLink) (v : TdPtr) :
    (n.setLink tdP v).ed = n.ed ∧ (n.setLink tdP v).urb = n.urb ∧
      (n.setLink tdP v).cnt = n.cnt := by
  cases tdP <;> exact ⟨rfl, rfl, rfl⟩

namespace Listed

variable {l l' : Ledger} {n n' : TdLinks} {todo todo' rev rev' : TdPtr} {fill fill' : UrbPtr → ℕ}
  {q : TdList → List TdPtr} {u : UrbPtr} {h : Holding} {i : TdList} {t : TdPtr} {e : EdPtr}
  {kept gone rest : List TdPtr} {k : ℕ}

/-- **`dl_del_list` takes a TD off a queue.** -/
theorem remove (hl : Listed l n todo rev fill q) (hq : q (.queue e) = kept ++ t :: rest) :
    Threads (TdList.next (n.setLink (.after e kept) (n.next t)))
      (TdList.start (n.setLink (.after e kept) (n.next t)) todo rev) (TdList.stop l)
      (Function.update q (.queue e) (kept ++ rest)) := by
  obtain rfl | ⟨ks, y, rfl⟩ := List.eq_nil_or_concat' kept
  · rw [TdLink.after_nil]
    refine hl.threads.drop [t] hq (Function.update_self _ _ _) (fun j hj => ?_)
    cases j with
    | queue x => exact Function.update_of_ne (fun h => hj (congrArg TdList.queue h)) _ _
    | reg | done | todo | rev => rfl
  · rw [TdLink.after_concat]
    have hy : y ∈ q (.queue e) := by simp [hq]
    have hw := hl.threads.walk (.queue e)
    rw [hq, List.append_assoc] at hw
    refine hl.threads.change (.queue e) ?_ (fun x hx j hj => ?_)
      (fun j hj => ⟨?_, rfl, fun x hx => ?_⟩)
    · rw [List.append_assoc]
      exact Walk.removeAfter hw
    · refine hl.threads.notMem ?_ hj
      simp only [List.mem_append, List.mem_singleton] at hx
      simp only [hq, List.mem_append, List.mem_cons]
      tauto
    · cases j <;> rfl
    · refine TdList.next_congr (Function.update_of_ne (fun hxy => ?_) _ _) rfl
      exact hl.threads.notMem hy hj (hxy ▸ hx)

/-- **`dl_reverse_done_list` skips the rest of a request.** -/
theorem skip (hl : Listed l n todo rev fill q) (hq : q (.queue e) = gone ++ rest)
    (hu : ∀ t ∈ gone, n.urb t = u) :
    Listed l { n with
        head := Function.update n.head e (exitLink n.next (n.head e) gone)
        cnt := Function.update n.cnt u (n.cnt u + gone.length) } todo rev fill
      (Function.update q (.queue e) rest) := by
  have hrest : ∀ x ∈ rest, x ∈ q (.queue e) := by
    rw [hq]
    exact fun x hx => List.mem_append_right _ hx
  refine hl.reorder ?_ rfl rfl (fun j x hx => ⟨j, Threads.mem_update_of_subset hrest hx⟩)
    (fun z x hx => Threads.mem_update_of_subset hrest hx) (fun z h hp => ?_)
  · refine hl.threads.drop gone hq (Function.update_self _ _ _) (fun j hj => ?_)
    cases j with
    | queue x => exact Function.update_of_ne (fun h => hj (congrArg TdList.queue h)) _ _
    | reg | done | todo | rev => rfl
  · have hof : TdList.of n.urb z gone = if z = u then gone.length else 0 := by
      split
      · exact List.countP_eq_length.mpr (fun t ht => by simp [hu t ht, *])
      · exact List.countP_eq_zero.mpr
          (fun t ht => by simpa [hu t ht] using fun h => ‹z ≠ u› h.symm)
    have hsum : TdList.outstanding n.urb (Function.update q (.queue e) rest) h.ed z + TdList.of
        n.urb z gone
        = TdList.outstanding n.urb q h.ed z := by
      by_cases hs : TdList.serves h.ed (.queue e) = true
      · have hup := TdList.outstanding_update n.urb q z rest hs
        rw [hq, TdList.of_append] at hup
        omega
      · have hnone : TdList.of n.urb z gone = 0 := by
          refine List.countP_eq_zero.mpr (fun t ht => ?_)
          intro hz
          have hz : n.urb t = z := by simpa using hz
          exact hs (hl.serves (t := t) (by rw [hq]; exact List.mem_append_left _ ht) (hz ▸ hp))
        rw [hnone, TdList.outstanding_update_other (Bool.eq_false_iff.mpr hs)]
        rfl
    dsimp only
    rw [Function.update_apply]
    rw [hof] at hsum
    split
    · rename_i hz
      subst hz
      rw [if_pos rfl] at hsum
      omega
    · rw [if_neg ‹_›] at hsum
      omega

/-- **A TD of a request becomes the end of the queue**, and the old end a TD of the
request. -/
theorem fill_swap (hl : Listed l n todo rev fill q) (ho : l.Owners) (hp : l.priv u = some h)
    (hk : k < h.length)
    (hnew : l.state h.ed ≠ .edNew) (hfill : fill u = k) :
    Listed (l.swap u h k) { n with
        next := Function.update (Function.update n.next (l.tail h.ed) (h.td k)) (h.td k) 0
        dl := Function.update n.dl (l.tail h.ed) 0
        ed := Function.update n.ed (l.tail h.ed) h.ed
        urb := Function.update n.urb (l.tail h.ed) u } todo rev (Function.update fill u (k + 1))
      (Function.update q (.queue h.ed) (q (.queue h.ed) ++ [l.tail h.ed])) := by
  have htail : ∀ i, l.tail h.ed ∉ q i := fun i => hl.tail_notMem ho hnew
  have hnext : ∀ i, h.td k ∉ q i := fun i => hl.slot_notMem ho hp hk hfill
  have hne : l.tail h.ed ≠ h.td k := by
    intro heq
    have hdummy : l.tdAt (.dummy h.ed) = some (l.tail h.ed) := if_pos hnew
    have hslot : l.tdAt (.slot u k) = some (l.tail h.ed) := by
      rw [Ledger.tdAt, hp, Option.bind_some, if_pos hk, heq]
    cases ho.owned.single _ _ _ hdummy hslot
  have hltail : (l.swap u h k).tail = Function.update l.tail h.ed (h.td k) := by
    rw [Ledger.swap, if_neg hne]
  have hpriv : (l.swap u h k).priv u
      = some { h with td := Function.update h.td k (l.tail h.ed) } :=
    Function.update_self _ _ _
  have hother : ∀ z, z ≠ u → (l.swap u h k).priv z = l.priv z :=
    fun z hz => Function.update_of_ne hz _ _
  have hurb : ∀ i, ∀ t ∈ q i, Function.update n.urb (l.tail h.ed) u t = n.urb t := fun i t ht =>
    Function.update_of_ne (ne_of_mem_of_not_mem ht (htail i)) _ _
  have hed : ∀ i, ∀ t ∈ q i, Function.update n.ed (l.tail h.ed) h.ed t = n.ed t := fun i t ht =>
    Function.update_of_ne (ne_of_mem_of_not_mem ht (htail i)) _ _
  -- a TD that is on a list is the old end, or has been there
  have hcases : ∀ i, ∀ t ∈ Function.update q (.queue h.ed) (q (.queue h.ed) ++ [l.tail h.ed]) i,
      t = l.tail h.ed ∧ i = .queue h.ed ∨ t ∈ q i := by
    intro i t ht
    rw [Function.update_apply] at ht
    split at ht
    · rename_i hi
      obtain ht | ht := List.mem_append.mp ht
      · exact .inr (hi ▸ ht)
      · exact .inl ⟨List.mem_singleton.mp ht, hi⟩
    · exact .inr ht
  refine ⟨?_, fun i t ht => ?_, fun e t ht => ?_, fun e he => ?_, fun z x hz => ?_⟩
  · refine hl.threads.append (y := h.td k) (.queue h.ed) htail (hnext _) hne ?_
      (fun j hj => ?_) ?_
      (fun j z hz => ?_)
    · rw [TdList.stop, hltail]
      exact Function.update_self _ _ _
    · cases j with
      | queue x =>
        have hx : x ≠ h.ed := fun hx => hj (congrArg TdList.queue hx)
        rw [TdList.stop, TdList.stop, hltail, Function.update_of_ne hx]
      | reg | done | todo | rev => rfl
    · change Function.update (Function.update n.next (l.tail h.ed) (h.td k)) (h.td k) 0
        (l.tail h.ed) = h.td k
      rw [Function.update_of_ne hne, Function.update_self]
    · have hz₁ : z ≠ l.tail h.ed := ne_of_mem_of_not_mem hz (htail j)
      have hz₂ : z ≠ h.td k := ne_of_mem_of_not_mem hz (hnext j)
      refine TdList.next_congr ?_ (Function.update_of_ne hz₁ _ _)
      dsimp only
      rw [Function.update_of_ne hz₂, Function.update_of_ne hz₁]
  · dsimp only
    obtain ⟨rfl, -⟩ | ht := hcases i t ht
    · rw [Function.update_self, Function.update_self, Function.update_self]
      exact ⟨_, hpriv, rfl, k, Nat.lt_succ_self k, Function.update_self _ _ _⟩
    · obtain ⟨x, hx, hxe, j, hj, hxt⟩ := hl.part i t ht
      rw [hurb i t ht, hed i t ht]
      by_cases hu : n.urb t = u
      · rw [hu] at hx hj ⊢
        rw [hp] at hx
        cases hx
        refine ⟨_, hpriv, hxe, j, ?_, ?_⟩
        · rw [Function.update_self]
          omega
        · exact (Function.update_of_ne (by omega) _ _).trans hxt
      · rw [hother _ hu, Function.update_of_ne hu]
        exact ⟨x, hx, hxe, j, hj, hxt⟩
  · dsimp only
    obtain ⟨rfl, hi⟩ | ht := hcases _ t ht
    · rw [Function.update_self]
      exact (TdList.queue.inj hi).symm
    · rw [hed _ t ht]
      exact hl.queue e t ht
  · have hne' : TdList.queue e ≠ .queue h.ed := by
      rintro ⟨⟩
      exact hnew he
    rw [Function.update_of_ne hne']
    exact hl.fresh e he
  · dsimp only
    have hout : ∀ y : Holding, TdList.outstanding (Function.update n.urb (l.tail h.ed) u)
        (Function.update q (.queue h.ed) (q (.queue h.ed) ++ [l.tail h.ed])) y.ed z
        = TdList.outstanding n.urb q y.ed z + if y.ed = h.ed ∧ z = u then 1 else 0 := by
      intro y
      have hsame : TdList.outstanding (Function.update n.urb (l.tail h.ed) u) q y.ed z
          = TdList.outstanding n.urb q y.ed z := TdList.outstanding_congr hurb
      by_cases hs : TdList.serves y.ed (.queue h.ed) = true
      · have hye : y.ed = h.ed := by
          have : h.ed = y.ed := by simpa [TdList.serves] using hs
          exact this.symm
        have hup := TdList.outstanding_update (Function.update n.urb (l.tail h.ed) u) q z
          (q (.queue h.ed) ++ [l.tail h.ed]) hs
        rw [TdList.of_append, TdList.of_cons, Function.update_self] at hup
        have hnil : TdList.of (Function.update n.urb (l.tail h.ed) u) z [] = 0 := rfl
        rw [hsame, hnil] at hup
        by_cases hz : u = z
        · rw [if_pos ⟨hye, hz.symm⟩]
          rw [if_pos hz] at hup
          omega
        · rw [if_neg (fun hc => hz hc.2.symm)]
          rw [if_neg hz] at hup
          omega
      · have hye : ¬ (y.ed = h.ed ∧ z = u) := fun hc => hs (by simp [TdList.serves, hc.1])
        rw [TdList.outstanding_update_other (Bool.eq_false_iff.mpr hs), if_neg hye, hsame]
        rfl
    by_cases hzu : z = u
    · subst hzu
      rw [hpriv] at hz
      cases hz
      obtain ⟨hsum, -, hlt⟩ := hl.count z h hp
      have ho' := hout { h with td := Function.update h.td k (l.tail h.ed) }
      rw [if_pos ⟨rfl, rfl⟩] at ho'
      dsimp only at ho' ⊢
      rw [Function.update_self]
      omega
    · rw [hother z hzu] at hz
      have ho' := hout x
      rw [if_neg (fun hc => hzu hc.2)] at ho'
      rw [ho', Function.update_of_ne hzu]
      exact hl.count z x hz

end Listed

/-! ## The TDs of a request are queued -/

/-- The number of `td_fill` calls `td_submit_urb` makes for a request. -/
def UrbConst.tdCount (r : UrbConst) : ℕ :=
  match r.pipe.type with
  | .bulk => (r.transferBufferLength - 1) / 4096 + 1
  | .int => 1
  | .ctrl => if r.transferBufferLength = 0 then 2 else 3
  | .iso => r.numberOfPackets

theorem length_tdCalls {r : Urb} {p : UrbPriv} {first : TdToggle} :
    (tdCalls r p first).length = r.const.tdCount := by
  unfold tdCalls UrbConst.tdCount Urb.const
  dsimp only
  cases r.pipe.type with
  | bulk => simp [bulkCalls]
  | int => rfl
  | ctrl =>
    dsimp only [controlCalls]
    split <;> rfl
  | iso => simp [isoCalls]

section Fill

variable {o o' : Ohci} {todo rev : TdPtr} {fill : UrbPtr → ℕ} {q : TdList → List TdPtr}
    {u : UrbPtr} {p : UrbPriv}
  {cs : List TdCall} {i : ℕ}

/-- **What `td_submit_urb` has done to the lists**: TDs have been put behind the
queue of an ED, and the links of those that are on lists are as they were. -/
def Requeued (n n' : TdLinks) (q q' : TdList → List TdPtr) (e : EdPtr) : Prop :=
  (∃ new, q' = Function.update q (.queue e) (q (.queue e) ++ new)) ∧ n'.head = n.head ∧
    ∀ i, ∀ t ∈ q i, n'.next t = n.next t

theorem Requeued.refl (n : TdLinks) (q : TdList → List TdPtr) (e : EdPtr) : Requeued n n q q e :=
  ⟨⟨[], by rw [List.append_nil, Function.update_eq_self]⟩, rfl, fun _ _ _ => rfl⟩

theorem Requeued.trans {n n' n'' : TdLinks} {q q' q'' : TdList → List TdPtr} {e : EdPtr}
    (h : Requeued n n' q q' e) (h' : Requeued n' n'' q' q'' e) : Requeued n n'' q q'' e := by
  obtain ⟨⟨new, rfl⟩, hhead, hnext⟩ := h
  obtain ⟨⟨new', rfl⟩, hhead', hnext'⟩ := h'
  refine ⟨⟨new ++ new', ?_⟩, hhead'.trans hhead, fun i t ht => ?_⟩
  · rw [Function.update_self, Function.update_idem, List.append_assoc]
  · refine (hnext' i t ?_).trans (hnext i t ht)
    rw [Function.update_apply]
    split
    · rename_i hi
      exact List.mem_append_left _ (hi ▸ ht)
    · exact ht

/-- **No TDs have been put on queues** but those of some requests, and no others have
changed hands. -/
def QueuesFrom (new : UrbPtr → Prop) (n n' : TdLinks) (q q' : TdList → List TdPtr) : Prop :=
  (∀ t, n'.urb t = n.urb t ∨ new (n'.urb t)) ∧ ∀ e, ∀ t ∈ q' (.queue e), t ∈ q (.queue e) ∨
    new (n'.urb t)

namespace QueuesFrom

variable {new : UrbPtr → Prop} {n n' n'' : TdLinks} {q' q'' : TdList → List TdPtr}

theorem of_subset (hurb : n'.urb = n.urb) (hq : ∀ e, ∀ t ∈ q' (.queue e), t ∈ q (.queue e)) :
    QueuesFrom new n n' q q' := ⟨fun t => .inl (congrFun hurb t), fun e t ht => .inl (hq e t ht)⟩

theorem of_urb (hurb : n'.urb = n.urb) : QueuesFrom new n n' q q :=
  of_subset hurb fun _ _ ht => ht

/-- A TD is taken off a queue. -/
theorem remove {e : EdPtr} {t : TdPtr} {xs ys : List TdPtr} (hurb : n'.urb = n.urb)
    (hq : q (.queue e) = xs ++ t :: ys) :
    QueuesFrom new n n' q (Function.update q (.queue e) (xs ++ ys)) := by
  refine of_subset hurb fun x y hy => ?_
  rw [Function.update_apply] at hy
  split at hy
  · rename_i hx
    rw [hx, hq]
    exact List.mem_append.mpr ((List.mem_append.mp hy).imp_right (List.mem_cons_of_mem _))
  · exact hy

theorem mono {old : UrbPtr → Prop} (h : QueuesFrom old n n' q q') (hnew : ∀ u, old u → new u) :
    QueuesFrom new n n' q q' :=
  ⟨fun t => (h.1 t).imp_right (hnew _), fun e t ht => (h.2 e t ht).imp_right (hnew _)⟩

theorem trans (h : QueuesFrom new n n' q q') (h' : QueuesFrom new n' n'' q' q'') :
    QueuesFrom new n n'' q q'' := by
  refine ⟨fun t => ?_, fun e t ht => ?_⟩
  · rcases h'.1 t with heq | hnew
    · rw [heq]
      exact h.1 t
    · exact .inr hnew
  · rcases h'.2 e t ht with ht | hnew
    · refine (h.2 e t ht).imp_right fun hnew => ?_
      exact (h'.1 t).elim (fun heq => heq ▸ hnew) id
    · exact .inr hnew

/-- One TD is put behind a queue. -/
theorem one {e : EdPtr} {next dl : TdPtr → TdPtr} {ed : TdPtr → EdPtr} (t : TdPtr) :
    QueuesFrom (· = u) n
      { n with next := next, dl := dl, ed := ed, urb := Function.update n.urb t u } q
      (Function.update q (.queue e) (q (.queue e) ++ [t])) := by
  refine ⟨fun x => ?_, fun x y hy => ?_⟩
  · dsimp only
    rw [Function.update_apply]
    split
    · exact .inr rfl
    · exact .inl rfl
  · rw [Function.update_apply] at hy
    split at hy
    · rename_i hx
      rcases List.mem_append.mp hy with hy | hy
      · exact .inl (hx ▸ hy)
      · rw [List.mem_singleton.mp hy]
        exact .inr (Function.update_self _ _ _)
    · exact .inl hy

end QueuesFrom

/-- **The loop of `td_submit_urb`.** There is nothing behind the last TD of the
request. -/
theorem listed_tdFills (hl : Listed o.ledger o.tdLinks todo rev fill q) (ho : o.ledger.Owners)
    (hp : (o.urb u).hcpriv = some p) (hfill : fill u = min i p.length)
    (hnew : (o.ed p.ed).state ≠ .edNew)
    (h : tdFills u cs i o = some o') :
    ∃ q', Listed o'.ledger o'.tdLinks todo rev
      (Function.update fill u (min (i + cs.length) p.length)) q' ∧
      o'.tdLinks.cnt = o.tdLinks.cnt ∧ Requeued o.tdLinks o'.tdLinks q q' p.ed ∧
      QueuesFrom (· = u) o.tdLinks o'.tdLinks q q' := by
  induction cs generalizing i o p fill q with
  | nil =>
    cases h
    refine ⟨q, ?_, rfl, .refl _ _ _, .of_urb rfl⟩
    rw [List.length_nil, Nat.add_zero, ← hfill, Function.update_eq_self]
    exact hl
  | cons c cs ih =>
    obtain ⟨o₁, h₁, h⟩ := Option.bind_eq_some_iff.mp h
    rw [List.length_cons, show i + (cs.length + 1) = i + 1 + cs.length by omega]
    by_cases hi : i < p.length
    · rw [tdFill_eq hp hi, Option.some.injEq] at h₁
      subst h₁
      have hfill : fill u = i := by omega
      have hstep := hl.fill_swap ho (ledger_priv hp) (k := i) hi hnew hfill
      have hlk : (fillTd o u p c i).tdLinks = _ := tdLinks_fillTd
      have hled : (fillTd o u p c i).ledger = _ := ledger_fillTd hp
      have hp₁ : ((fillTd o u p c i).urb u).hcpriv
          = some { p with td := Function.update p.td i (o.ed p.ed).hwTailP } := by
        rw [fillTd_urb, Ohci.modPriv_urb_self, hp]
        rfl
      have hst : ((fillTd o u p c i).ed p.ed).state = (o.ed p.ed).state :=
        congrFun (congrArg Ledger.state hled) p.ed
      have hown : (fillTd o u p c i).ledger.Owners := by
        rw [hled]
        exact ho.swap (ledger_priv hp) hi hnew
      have hlist : Listed (fillTd o u p c i).ledger (fillTd o u p c i).tdLinks todo rev
          (Function.update fill u (i + 1))
          (Function.update q (.queue p.ed) (q (.queue p.ed) ++ [(o.ed p.ed).hwTailP])) := by
        rw [hled, hlk]
        exact hstep
      have hone : Requeued o.tdLinks (fillTd o u p c i).tdLinks q
          (Function.update q (.queue p.ed) (q (.queue p.ed) ++ [(o.ed p.ed).hwTailP])) p.ed := by
        rw [hlk]
        refine ⟨⟨_, rfl⟩, rfl, fun j t ht => ?_⟩
        have htail : t ≠ (o.ed p.ed).hwTailP := ne_of_mem_of_not_mem ht (hl.tail_notMem ho hnew)
        have hslot : t ≠ p.td i :=
          ne_of_mem_of_not_mem ht (hl.slot_notMem ho (ledger_priv hp) hi hfill)
        dsimp only
        rw [Function.update_of_ne hslot, Function.update_of_ne htail]
      have hput : QueuesFrom (· = u) o.tdLinks (fillTd o u p c i).tdLinks q
          (Function.update q (.queue p.ed) (q (.queue p.ed) ++ [(o.ed p.ed).hwTailP])) := by
        rw [hlk]
        exact .one (o.ed p.ed).hwTailP
      obtain ⟨q', hl', hcnt, hreq, hput'⟩ := ih hlist hown hp₁
        (by rw [Function.update_self]; exact (Nat.min_eq_left hi).symm)
        (by rw [hst]; exact hnew) h
      refine ⟨q', ?_, ?_, hone.trans hreq, hput.trans hput'⟩
      · rw [Function.update_idem] at hl'
        exact hl'
      · rw [hcnt, hlk]
    · rw [tdFill_of_le hp (by omega), Option.some.injEq] at h₁
      subst h₁
      exact ih hl ho hp (by omega) hnew h

/-- **`td_submit_urb`** queues the TDs of a request that has none on a list. -/
theorem listed_tdSubmitUrb (hl : Listed o.ledger o.tdLinks todo rev fill q) (ho : o.ledger.Owners)
    (hp : (o.urb u).hcpriv = some p) (hidle : ∀ i, ∀ t ∈ q i, o.tdLinks.urb t ≠ u)
    (hnew : (o.ed p.ed).state ≠ .edNew) (h : tdSubmitUrb o u = some o') :
    ∃ q', Listed o'.ledger o'.tdLinks todo rev
        (Function.update fill u (min (o.urb u).const.tdCount p.length)) q' ∧
      o'.tdLinks.cnt = Function.update o.tdLinks.cnt u 0 ∧
        Requeued o.tdLinks o'.tdLinks q q' p.ed ∧
      QueuesFrom (· = u) o.tdLinks o'.tdLinks q q' := by
  obtain ⟨p', hp', h⟩ := Option.bind_eq_some_iff.mp h
  rw [hp] at hp'
  cases hp'
  have hled : ((submitStart o u).log (.submitTds u)).ledger = o.ledger := by
    unfold submitStart
    dsimp only
    rw [Ohci.ledger_log, Ohci.ledger_modPriv_same (by intro; rfl)]
    exact Ohci.ledger_modDev_same (by intro; rfl)
  have hlk := tdLinks_submitStart hp
  have hp₁ : (((submitStart o u).log (.submitTds u)).urb u).hcpriv
      = some { p with tdCnt := 0 } := by
    unfold submitStart
    dsimp only
    rw [Ohci.log_urb, Ohci.modPriv_urb_self, Ohci.modDev_urb, hp]
    rfl
  have hst : (((submitStart o u).log (.submitTds u)).ed p.ed).state = (o.ed p.ed).state :=
    congrFun (congrArg Ledger.state hled) p.ed
  have hlt := (hl.count u p.holding (ledger_priv hp)).2.2
  have hstart : Listed o.ledger ((submitStart o u).log (.submitTds u)).tdLinks todo rev
      (Function.update fill u 0) q := by
    rw [hlk]
    refine hl.keep ?_ rfl rfl hl.fresh (fun i t ht x hx => ?_) (fun z x hx => ?_)
    · exact hl.threads.congr (fun j => by cases j <;> rfl) (fun j => rfl)
        (fun j t ht => TdList.next_congr rfl rfl)
    · exact ⟨x, hx, rfl, rfl, Function.update_of_ne (hidle i t ht) _ _⟩
    · by_cases hz : z = u
      · subst hz
        rw [ledger_priv hp] at hx
        cases hx
        refine .inr ⟨hidle, ?_, ?_, hlt⟩
        · rw [Function.update_self]
          exact Function.update_self _ _ _
        · rw [Function.update_self]
          exact Nat.zero_le _
      · exact .inl ⟨x, hx, rfl, rfl, Function.update_of_ne hz _ _, Function.update_of_ne hz _ _⟩
  rw [← hled] at hstart ho
  obtain ⟨q', hl', hcnt, hreq, hput⟩ := listed_tdFills hstart ho hp₁
    (by rw [Function.update_self]; exact (Nat.zero_min _).symm) (by rw [hst]; exact hnew) h
  refine ⟨q', ?_, ?_, ?_, ?_⟩
  · rw [Function.update_idem, Nat.zero_add, length_tdCalls] at hl'
    exact hl'
  · rw [hcnt, hlk]
  · rw [hlk] at hreq
    exact hreq
  · rw [hlk] at hput
    exact hput

end Fill
