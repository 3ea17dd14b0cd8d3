import Mathlib.Algebra.BigOperators.Group.Finset.Basic
import Mathlib.Algebra.Order.BigOperators.Group.Finset
import SideDumper.Requests
import SideDumper.ScheduleUnlink

/-!
# The loads of the interrupt branches

`ep_link` books the load of an interrupt ED on every branch the ED is on, and
`ep_unlink` takes it off again. Both go by fields of the ED, and
`ep_add_ed` writes such fields. The sums come out right because
`ep_add_ed` writes `int_load` and `int_period` in the state `ED_UNLINK` only,
and nobody else writes `int_branch` and `int_interval`.

`Booking` is what an ED says about its load. The loops over the lists write
links and leave all bookings alone.
-/

/-- What an ED says about its load. -/
structure Booking where
  state : EdState
  type : PipeType
  intPeriod : ℕ
  intLoad : ℕ
  intInterval : ℕ
  intBranch : ℕ

/-- The booking of an ED. -/
def Ed.booking (r : Ed) : Booking :=
  ⟨r.state, r.type, r.intPeriod, r.intLoad, r.intInterval, r.intBranch⟩

/-- **The books**: the loads of the branches and the bookings of the EDs. -/
structure Books where
  load : ℕ → ℤ
  booking : EdPtr → Booking

/-- The books in memory. -/
def Ohci.books (o : Ohci) : Books := ⟨o.ohciIntLoad, fun e => (o.ed e).booking⟩

/-! ## What the loops leave alone -/

section Frame

variable {o o' : Ohci} {e v : EdPtr} {c : Cell} {fuel : ℕ}

theorem books_modEd {f : Ed → Ed} (hf : ∀ r, (f r).booking = r.booking) :
    (o.modEd e f).books = o.books := by
  have hbooking : (fun x => ((o.modEd e f).ed x).booking) = fun x => (o.ed x).booking := by
    funext x
    rw [Ohci.modEd_ed]
    split
    · rw [hf, ‹x = e›]
    · rfl
  exact congrArg (Books.mk o.ohciIntLoad) hbooking

/-- A write to an ED. -/
theorem books_modEd_eq (o : Ohci) (e : EdPtr) (f : Ed → Ed) :
    (o.modEd e f).books
      = ⟨o.books.load, Function.update o.books.booking e (f (o.ed e)).booking⟩ := by
  refine congrArg (Books.mk o.ohciIntLoad) (funext fun x => ?_)
  rw [Ohci.modEd_ed, Function.update_apply]
  split
  · rfl
  · rfl

theorem books_set : (o.set c v).books = o.books := by
  cases c with
  | table i => rfl
  | next x => exact books_modEd (fun _ => rfl)

theorem books_linkIntLoop {interval intBranch i : ℕ}
    (h : linkIntLoop e interval intBranch fuel i o = some o') : o'.books = o.books := by
  induction fuel generalizing i o with
  | zero => cases h
  | succ fuel ih =>
    rw [linkIntLoop] at h
    split at h
    · obtain ⟨⟨c, stride⟩, -, h⟩ := Option.bind_eq_some_iff.mp h
      rw [ih h, books_set]
      exact books_modEd (fun _ => rfl)
    · cases h
      rfl

theorem books_unlinkWalk {inter inter' : ℕ}
    (h : unlinkWalk e o fuel c inter = some (o', inter')) :
    o'.books = o.books := by
  induction fuel generalizing c inter with
  | zero => cases h
  | succ fuel ih =>
    rw [unlinkWalk] at h
    split at h
    · split at h
      · cases h
        exact books_set
      · exact ih h
    · cases h
      rfl

theorem books_unlinkIntLoop {interval intBranch i : ℕ}
    (h : unlinkIntLoop e interval intBranch fuel i o = some o') : o'.books = o.books := by
  induction fuel generalizing i o with
  | zero => cases h
  | succ fuel ih =>
    rw [unlinkIntLoop] at h
    split at h
    · obtain ⟨⟨o₁, stride⟩, h₁, h⟩ := Option.bind_eq_some_iff.mp h
      rw [ih h, books_unlinkWalk h₁]
    · cases h
      rfl

end Frame

/-! ## What the calls do -/

/-- **The loop over the branches** adds a load to those of its class. -/
theorem addLoad_eq {interval i fuel : ℕ} {load : ℤ} {l l' : ℕ → ℤ} (hpos : 0 < interval)
    (h : addLoad interval load fuel i l = some l') {j : ℕ} (hj : j < 32) :
    l' j = l j + if i ≤ j ∧ j % interval = i % interval then load else 0 := by
  induction fuel generalizing i l with
  | zero => cases h
  | succ fuel ih =>
    rw [addLoad] at h
    split at h
    · rw [ih h, Nat.add_mod_right, Function.update_apply]
      by_cases hji : j = i
      · rw [hji, if_pos rfl, if_neg (by omega), if_pos ⟨Nat.le_refl i, rfl⟩, add_zero]
      · rw [if_neg hji]
        -- a branch of the class behind `i` is a whole interval behind it
        have hnext : i + interval ≤ j ∧ j % interval = i % interval ↔
            i ≤ j ∧ j % interval = i % interval := by
          refine and_congr_left fun hmod => ⟨fun hle => by omega, fun hle => ?_⟩
          have hdvd : interval ∣ j - i := (Nat.modEq_iff_dvd' hle).mp hmod.symm
          have hle' := Nat.le_of_dvd (by omega) hdvd
          omega
        simp only [hnext]
    · cases h
      rw [if_neg (by omega), add_zero]

/-- A branch is of the class of an ED. -/
def Booking.on (b : Booking) (i : ℕ) : Prop := i % b.intInterval = b.intBranch % b.intInterval

instance (b : Booking) (i : ℕ) : Decidable (b.on i) := Nat.decEq _ _

/-- A branch of a class is not in front of the one below the interval. -/
theorem class_iff {interval branch i : ℕ} (hlt : branch < interval) :
    branch ≤ i ∧ i % interval = branch % interval ↔ i % interval = branch % interval := by
  refine and_iff_right_of_imp fun hmod => ?_
  rw [Nat.mod_eq_of_lt hlt] at hmod
  exact hmod ▸ Nat.mod_le i interval

/-- **What `ep_int_ballance` books.** -/
theorem epIntBallance_books {o o' : Ohci} {interval branch fuel : ℕ} {load : ℤ}
    (hpos : 0 < interval)
    (h : epIntBallance fuel o interval load = some (branch, o')) :
    branch < interval ∧ o'.ed = o.ed ∧ ∀ i < 32, o'.ohciIntLoad i
      = o.ohciIntLoad i + if i % interval = branch % interval then load else 0 := by
  obtain ⟨loads, hloads, h⟩ := Option.bind_eq_some_iff.mp h
  simp only [Option.some.injEq, Prod.mk.injEq] at h
  obtain ⟨rfl, rfl⟩ := h
  have hlt : leastLoaded o.ohciIntLoad % interval < interval := Nat.mod_lt _ hpos
  refine ⟨hlt, rfl, fun i hi => ?_⟩
  show loads i = _
  rw [addLoad_eq hpos hloads hi]
  simp only [class_iff hlt]

theorem linkInt_books {o o' : Ohci} {e fuel : ℕ} (h : linkInt fuel o e = some o') :
    ∃ branch < ep2nInterval (o.ed e).intPeriod,
      o'.books.booking = Function.update o.books.booking e
        { (o.ed e).booking with
          intInterval := ep2nInterval (o.ed e).intPeriod, intBranch := branch } ∧
      ∀ i < 32, o'.books.load i
        = o.books.load i + if (o'.books.booking e).on i then ((o.ed e).intLoad : ℤ) else 0 := by
  obtain ⟨k, -, hk⟩ := ep2nInterval_eq_two_pow (o.ed e).intPeriod
  have hpos : 0 < ep2nInterval (o.ed e).intPeriod := hk ▸ Nat.two_pow_pos k
  unfold linkInt at h
  generalize ep2nInterval (o.ed e).intPeriod = interval at h hpos ⊢
  obtain ⟨⟨branch, o₂⟩, hballance, h⟩ := Option.bind_eq_some_iff.mp h
  obtain ⟨hlt, hed, hload⟩ := epIntBallance_books hpos hballance
  have hedE : o₂.ed e = { o.ed e with intInterval := interval } := by
    rw [hed, Ohci.modEd_ed_self]
  have hbooks := books_linkIntLoop h
  rw [books_modEd_eq, hedE] at hbooks
  have hold : o₂.books.booking = Function.update o.books.booking e
      { (o.ed e).booking with intInterval := interval } := by
    have hbooking : o₂.books.booking
        = (o.modEd e (fun r => { r with intInterval := interval })).books.booking := by
      show (fun x => (o₂.ed x).booking) = _
      rw [hed]
      rfl
    rw [hbooking, books_modEd_eq]
    rfl
  have hbooking : o'.books.booking = Function.update o.books.booking e
      { (o.ed e).booking with intInterval := interval, intBranch := branch } := by
    rw [hbooks, hold]
    exact Function.update_idem _ _ _
  refine ⟨branch, hlt, hbooking, fun i hi => ?_⟩
  have hload' : o'.books.load i = o₂.ohciIntLoad i := congrFun (congrArg Books.load hbooks) i
  rw [hload', hload i hi, hbooking, Function.update_self]
  rfl

/-- **What `ep_link` books** for an interrupt ED. -/
theorem epLink_books {o o' : Ohci} {e fuel : ℕ} (hint : (o.ed e).type = .int)
    (h : epLink fuel o e = some o') :
    ∃ branch < ep2nInterval (o.ed e).intPeriod,
      o'.books.booking = Function.update o.books.booking e
        { (o.ed e).booking with
          state := .edOper
          intInterval := ep2nInterval (o.ed e).intPeriod
          intBranch := branch } ∧
      ∀ i < 32, o'.books.load i
        = o.books.load i + if (o'.books.booking e).on i then ((o.ed e).intLoad : ℤ) else 0 := by
  unfold epLink at h
  simp only [Ohci.modEd_ed_self, hint] at h
  obtain ⟨branch, hlt, hbooking, hload⟩ := linkInt_books h
  simp only [Ohci.modEd_ed_self, books_modEd_eq] at hlt hbooking hload
  refine ⟨branch, hlt, ?_, hload⟩
  rw [hbooking]
  exact Function.update_idem _ _ _

/-- **What `ep_unlink` takes off the books** for an interrupt ED. -/
theorem epUnlink_books {o o' : Ohci} {e fuel : ℕ} (hint : (o.ed e).type = .int)
    (hbranch : (o.ed e).intBranch < (o.ed e).intInterval) (h : epUnlink fuel o e = some o') :
    o'.books.booking = Function.update o.books.booking e
        { (o.ed e).booking with state := .edUnlink } ∧
      ∀ i < 32, o'.books.load i
        = o.books.load i - if (o.books.booking e).on i then ((o.ed e).intLoad : ℤ) else 0 := by
  unfold epUnlink at h
  obtain ⟨o₂, hunlink, h⟩ := Option.bind_eq_some_iff.mp h
  cases h
  have hskip : (o.modEd e (fun r => { r with hwINFO := { r.hwINFO with k := true } })).books
      = o.books :=
    books_modEd (fun _ => rfl)
  unfold unlinkType at hunlink
  simp only [Ohci.modEd_ed_self, hint] at hunlink
  unfold unlinkInt at hunlink
  obtain ⟨o₁, hloop, hunlink⟩ := Option.bind_eq_some_iff.mp hunlink
  obtain ⟨loads, hloads, hunlink⟩ := Option.bind_eq_some_iff.mp hunlink
  cases hunlink
  simp only [Ohci.modEd_ed_self] at hloads
  have hbooks : o₁.books = o.books := (books_unlinkIntLoop hloop).trans hskip
  have hedE : (o₁.ed e).booking = (o.ed e).booking := congrFun (congrArg Books.booking hbooks) e
  have hintLoad : (o₁.ed e).intLoad = (o.ed e).intLoad := congrArg Booking.intLoad hedE
  have hload : o₁.ohciIntLoad = o.ohciIntLoad := congrArg Books.load hbooks
  constructor
  · rw [books_modEd_eq]
    show Function.update o₁.books.booking e { (o₁.ed e).booking with state := .edUnlink } = _
    rw [hbooks, hedE]
  · intro i hi
    show loads i = _
    rw [addLoad_eq (Nat.zero_lt_of_lt hbranch) hloads hi, hload, hintLoad]
    simp only [class_iff hbranch]
    show o.ohciIntLoad i + _ = o.ohciIntLoad i - if (o.books.booking e).on i then _ else 0
    rw [sub_eq_add_neg, apply_ite Neg.neg, neg_zero]
    rfl

/-- Filling in an ED that is linked leaves its booking alone. -/
theorem fillEd_books (o : Ohci) (d : DevPtr) (e : EdPtr) (pipe : Pipe) (interval load : ℕ)
    (x : EdPtr) :
    ((fillEd o d e pipe interval load).ed x).state = (o.ed x).state ∧
      ((o.ed x).state = .edOper →
        ((fillEd o d e pipe interval load).ed x).booking = (o.ed x).booking) := by
  unfold fillEd
  rw [Ohci.modEd_ed]
  by_cases hx : x = e
  · rw [if_pos hx, hx]
    dsimp only
    split
    · rename_i hunlinked
      exact ⟨rfl, fun hoper => absurd (hoper.symm.trans hunlinked.2) (by decide)⟩
    · exact ⟨rfl, fun _ => rfl⟩
  · rw [if_neg hx]
    exact ⟨rfl, fun _ => rfl⟩

/-- Initializing an ED makes it one that is not linked. -/
theorem initEd_books (o : Ohci) (d : DevPtr) (e : EdPtr) (pipe : Pipe) (dummy : TdPtr)
    (x : EdPtr) :
    (x = e → ((initEd o d e pipe dummy).ed x).state = .edUnlink) ∧
      (x ≠ e → (initEd o d e pipe dummy).ed x = o.ed x) := by
  constructor
  · rintro rfl
    simp [initEd]
  · intro hx
    simp [initEd, Ohci.modEd_ed, hx]

/-- **What `ep_add_ed` leaves in the books**: an ED that is linked before or
behind it keeps its booking. -/
theorem epAddEd_books (o : Ohci) (d : DevPtr) (pipe : Pipe) (interval load : ℕ) (dummy : TdPtr) :
    (epAddEd o d pipe interval load dummy).2.books.load = o.books.load ∧
      ∀ x, (o.ed x).state = .edOper ∨ ((epAddEd o d pipe interval load dummy).2.ed x).state
        = .edOper →
        (epAddEd o d pipe interval load dummy).2.books.booking x = o.books.booking x := by
  unfold epAddEd
  generalize edOf o d pipe = e
  dsimp only
  split
  · exact ⟨rfl, fun _ _ => rfl⟩
  · split
    · rename_i hnew
      have hskip : (o.modEd e (fun r => { r with hwINFO := skipInfo })).books = o.books :=
        books_modEd (fun _ => rfl)
      generalize o.modEd e (fun r => { r with hwINFO := skipInfo }) = o₁ at hskip ⊢
      have hbooking : ∀ x, (o₁.ed x).booking = (o.ed x).booking :=
        fun x => congrFun (congrArg Books.booking hskip) x
      split
      · exact ⟨congrArg Books.load hskip, fun x _ => hbooking x⟩
      · have hload : o₁.books.load = o.books.load := congrArg Books.load hskip
        refine ⟨hload, fun x hx => ?_⟩
        obtain ⟨hstate, hsame⟩ := fillEd_books (initEd o₁ d e pipe dummy) d e pipe interval load x
        obtain ⟨hself, hother⟩ := initEd_books o₁ d e pipe dummy x
        have hne : x ≠ e := by
          rintro rfl
          rcases hx with hx | hx
          · exact absurd (hx.symm.trans hnew) (by decide)
          · exact absurd (hx.symm.trans (hstate.trans (hself rfl))) (by decide)
        rw [hother hne] at hstate hsame
        have hoper : (o₁.ed x).state = .edOper := by
          rcases hx with hx | hx
          · exact (congrArg Booking.state (hbooking x)).trans hx
          · exact hstate.symm.trans hx
        exact (hsame hoper).trans (hbooking x)
    · refine ⟨rfl, fun x hx => ?_⟩
      obtain ⟨hstate, hsame⟩ := fillEd_books o d e pipe interval load x
      rcases hx with hx | hx
      · exact hsame hx
      · exact hsame (hstate.symm.trans hx)

/-! ## Runs -/

/-- An interrupt ED that is linked. -/
def Ohci.IntLinked (o : Ohci) (e : EdPtr) : Prop := (o.ed e).state = .edOper ∧
  (o.ed e).type = .int

/-- **The memories that are reached** from one in which no ED is linked and
nothing is booked, with the EDs that the calls have linked and not unlinked. -/
inductive IntRun : Ohci → Finset EdPtr → Prop
  | start {o : Ohci} (hed : ∀ e, (o.ed e).state ≠ .edOper) (hload : ∀ i < 32,
      o.ohciIntLoad i = 0) :
      IntRun o ∅
  | add {o : Ohci} {L : Finset EdPtr} (h : IntRun o L) (d : DevPtr) (pipe : Pipe) (interval load :
      ℕ) (dummy : TdPtr) :
      IntRun (epAddEd o d pipe interval load dummy).2 L
  | link {o o' : Ohci} {L : Finset EdPtr} {e : EdPtr} {fuel : ℕ} (h : IntRun o L) (hstate :
      (o.ed e).state = .edUnlink)
      (hint : (o.ed e).type = .int) (hlink : epLink fuel o e = some o') : IntRun o' (insert e L)
  | unlink {o o' : Ohci} {L : Finset EdPtr} {e : EdPtr} {fuel : ℕ} (h : IntRun o L) (he : e ∈ L)
      (hunlink : epUnlink fuel o e = some o') : IntRun o' (L.erase e)

/-- The load that is booked on a branch by some EDs. -/
def Books.sum (b : Books) (L : Finset EdPtr) (i : ℕ) : ℤ :=
  ∑ e ∈ L with (b.booking e).on i, ((b.booking e).intLoad : ℤ)

/-- **The books are right**: a load is the sum of what the linked EDs of its
class say, and these have an interval and a branch. -/
structure Booked (b : Books) (L : Finset EdPtr) : Prop where
  mem : ∀ e, e ∈ L ↔ (b.booking e).state = .edOper ∧ (b.booking e).type = .int
  load : ∀ i < 32, b.load i = b.sum L i
  interval : ∀ e ∈ L, (b.booking e).intInterval ∈ [1, 2, 4, 8, 16, 32]
  branch : ∀ e ∈ L, (b.booking e).intBranch < (b.booking e).intInterval

namespace Booked

variable {b b' : Books} {L : Finset EdPtr} {e : EdPtr}

theorem sum_congr (h : ∀ x ∈ L, b'.booking x = b.booking x) (i : ℕ) : b'.sum L i = b.sum L i := by
  unfold Books.sum
  rw [Finset.sum_filter, Finset.sum_filter]
  refine Finset.sum_congr rfl fun x hx => ?_
  rw [h x hx]

theorem sum_insert (he : e ∉ L) (i : ℕ) : b.sum (insert e L) i
    = b.sum L i + if (b.booking e).on i then ((b.booking e).intLoad : ℤ) else 0 := by
  unfold Books.sum
  rw [Finset.sum_filter, Finset.sum_filter, Finset.sum_insert he, add_comm]

/-- Nothing changes for the linked EDs. -/
theorem keep (h : Booked b L) (hload : b'.load = b.load)
    (hbooking : ∀ x, (b.booking x).state = .edOper ∨ (b'.booking x).state = .edOper →
      b'.booking x = b.booking x) : Booked b' L := by
  have hkept : ∀ x ∈ L, b'.booking x = b.booking x :=
    fun x hx => hbooking x (.inl ((h.mem x).mp hx).1)
  refine ⟨fun x => ?_, fun i hi => ?_, fun x hx => ?_, fun x hx => ?_⟩
  · rw [h.mem]
    constructor
    · intro hx
      rw [hbooking x (.inl hx.1)]
      exact hx
    · intro hx
      rw [← hbooking x (.inr hx.1)]
      exact hx
  · rw [hload, h.load i hi, sum_congr hkept]
  · rw [hkept x hx]
    exact h.interval x hx
  · rw [hkept x hx]
    exact h.branch x hx

/-- An ED is booked. -/
theorem insert (h : Booked b L) {v : Booking} (he : e ∉ L)
    (hbooking : b'.booking = Function.update b.booking e v) (hstate : v.state = .edOper)
    (hint : v.type = .int) (hinterval : v.intInterval ∈ [1, 2, 4, 8, 16, 32])
    (hbranch : v.intBranch < v.intInterval)
    (hload : ∀ i < 32, b'.load i = b.load i + if v.on i then (v.intLoad : ℤ) else 0) :
    Booked b' (Insert.insert e L) := by
  have hself : b'.booking e = v := by rw [hbooking, Function.update_self]
  have hother : ∀ x, x ≠ e → b'.booking x = b.booking x :=
    fun x hx => by rw [hbooking, Function.update_of_ne hx]
  have hne : ∀ x ∈ L, x ≠ e := fun x hx hxe => he (hxe ▸ hx)
  refine ⟨fun x => ?_, fun i hi => ?_, fun x hx => ?_, fun x hx => ?_⟩
  · by_cases hx : x = e
    · rw [hx, hself]
      simp [hstate, hint]
    · rw [Finset.mem_insert, hother x hx, h.mem]
      simp [hx]
  · rw [sum_insert he, hself, sum_congr (fun x hx => hother x (hne x hx)), hload i hi,
      h.load i hi]
  · rcases Finset.mem_insert.mp hx with rfl | hx
    · rw [hself]
      exact hinterval
    · rw [hother x (hne x hx)]
      exact h.interval x hx
  · rcases Finset.mem_insert.mp hx with rfl | hx
    · rw [hself]
      exact hbranch
    · rw [hother x (hne x hx)]
      exact h.branch x hx

/-- An ED is taken off the books. -/
theorem erase (h : Booked b L) {v : Booking} (he : e ∈ L)
    (hbooking : b'.booking = Function.update b.booking e v) (hstate : v.state ≠ .edOper)
    (hload : ∀ i < 32, b'.load i
      = b.load i - if (b.booking e).on i then ((b.booking e).intLoad : ℤ) else 0) :
    Booked b' (L.erase e) := by
  have hself : b'.booking e = v := by rw [hbooking, Function.update_self]
  have hother : ∀ x, x ≠ e → b'.booking x = b.booking x :=
    fun x hx => by rw [hbooking, Function.update_of_ne hx]
  refine ⟨fun x => ?_, fun i hi => ?_, fun x hx => ?_, fun x hx => ?_⟩
  · by_cases hx : x = e
    · rw [hx, hself]
      simp [hstate]
    · rw [Finset.mem_erase, hother x hx, h.mem]
      simp [hx]
  · have hsum := sum_insert (b := b) (Finset.notMem_erase e L) i
    rw [Finset.insert_erase he] at hsum
    rw [sum_congr (fun x hx => hother x (Finset.ne_of_mem_erase hx)), hload i hi,
      h.load i hi, hsum, add_sub_cancel_right]
  · rw [hother x (Finset.ne_of_mem_erase hx)]
    exact h.interval x (Finset.mem_of_mem_erase hx)
  · rw [hother x (Finset.ne_of_mem_erase hx)]
    exact h.branch x (Finset.mem_of_mem_erase hx)

end Booked

theorem ep2nInterval_mem (inter : ℕ) : ep2nInterval inter ∈ [1, 2, 4, 8, 16, 32] := by
  obtain ⟨k, hk, hinterval⟩ := ep2nInterval_eq_two_pow inter
  rw [hinterval]
  have hall : ∀ k < 6, 2 ^ k ∈ [1, 2, 4, 8, 16, 32] := by decide
  exact hall k (by omega)

/-- **The books are right** in every memory that is reached. -/
theorem IntRun.booked {o : Ohci} {L : Finset EdPtr} (h : IntRun o L) : Booked o.books L := by
  induction h with
  | @start o hed hload =>
    refine ⟨fun e => ?_, fun i hi => ?_, fun e he => absurd he (Finset.notMem_empty e),
      fun e he => absurd he (Finset.notMem_empty e)⟩
    · exact iff_of_false (Finset.notMem_empty e) fun h => hed e h.1
    · exact hload i hi
  | add _ d pipe interval load dummy hL =>
    obtain ⟨hload, hbooking⟩ := epAddEd_books _ d pipe interval load dummy
    exact hL.keep hload hbooking
  | @link o o' L e fuel _ hstate hint hlink hL =>
    obtain ⟨branch, hlt, hbooking, hload⟩ := epLink_books hint hlink
    have he : e ∉ L := fun he => absurd (((hL.mem e).mp he).1.symm.trans hstate) (by decide)
    refine hL.insert he hbooking rfl hint (ep2nInterval_mem _) hlt fun i hi => ?_
    rw [hload i hi, hbooking, Function.update_self]
    rfl
  | @unlink o o' L e fuel _ he hunlink hL =>
    obtain ⟨hbooking, hload⟩ := epUnlink_books ((hL.mem e).mp he).2 (hL.branch e he) hunlink
    exact hL.erase he hbooking (by decide : EdState.edUnlink ≠ .edOper) hload

/-- **The load accounting is exact** in every memory that is reached: the load of each
branch is the sum over the linked EDs, and these have an interval and a branch below it.
As long as the lists of the branches hold the linked EDs, the calls that come next return. -/
theorem int_load_exact (o : Ohci) (linked : Finset EdPtr) (h : IntRun o linked) :
    (∀ i < 32, o.ohciIntLoad i
      = ∑ e ∈ linked with i % (o.ed e).intInterval = (o.ed e).intBranch % (o.ed e).intInterval,
          ((o.ed e).intLoad : ℤ)) ∧
    (∀ e ∈ linked, (o.ed e).intInterval ∈ [1, 2, 4, 8, 16, 32] ∧
      (o.ed e).intBranch < (o.ed e).intInterval) ∧
    (∀ e, e ∈ linked ↔ o.IntLinked e) ∧
    ∀ lists, o.Periodic linked.toList lists →
      (∀ e, e ≠ 0 → (o.ed e).state = .edUnlink → (o.ed e).type = .int →
        ∃ fuel o', epLink fuel o e = some o') ∧
        ∀ e ∈ linked, ∃ fuel o', epUnlink fuel o e = some o' := by
  have hL := h.booked
  refine ⟨hL.load, fun e he => ⟨hL.interval e he, hL.branch e he⟩, hL.mem, fun lists hlists =>
    ⟨fun e he0 hstate hint => ?_, fun e he => ?_⟩⟩
  · have he : e ∉ linked.toList := by
      rw [Finset.mem_toList, hL.mem]
      exact fun h => absurd (hstate.symm.trans h.1) (by decide)
    obtain ⟨n, o', heq, -⟩ := hlists.epLink_int he0 he hint
    exact ⟨n, o', heq n le_rfl⟩
  · obtain ⟨m, -, -, n, o', heq, -⟩ :=
      hlists.epUnlink_int (Finset.mem_toList.mpr he) ((hL.mem e).mp he).2 (hL.branch e he)
    exact ⟨n, o', heq n le_rfl⟩

/-- Three interrupt endpoints of a driver that has just started, of the intervals 8, 20
and 4. Their EDs are at the addresses 2, 4 and 6. -/
def Ohci.threeInts : Ohci :=
  let o := (epAddEd default 1 ⟨.int, 1, 1, false, false⟩ 8 5 1).2
  let o := (epAddEd o 1 ⟨.int, 1, 2, false, false⟩ 20 3 2).2
  (epAddEd o 1 ⟨.int, 1, 3, false, false⟩ 4 7 3).2

/-- Their EDs are linked one after the other, and the first one is unlinked again. -/
def Ohci.threeIntsRun : Option (Ohci × Ohci × Ohci × Ohci) := do
  let o₁ ← epLink 70 .threeInts 2
  let o₂ ← epLink 70 o₁ 4
  let o₃ ← epLink 70 o₂ 6
  let o₄ ← epUnlink 70 o₃ 2
  some (o₁, o₂, o₃, o₄)

/-- Two EDs are linked then and one is not, and the branches have the loads of the two. -/
theorem int_load_exact_twoLinked : ∃ o₁ o₂ o₃ o : Ohci, Ohci.threeIntsRun = some (o₁, o₂, o₃, o) ∧
    (∀ e, o.IntLinked e ↔ e = 4 ∨ e = 6) ∧ (o.ed 2).state = .edUnlink ∧
    [(o.ed 4).intInterval, (o.ed 4).intBranch, (o.ed 6).intInterval, (o.ed 6).intBranch]
      = [16, 1, 4, 2] ∧
    [0, 1, 2, 17, 18].map o.ohciIntLoad = [0, 3, 7, 3, 7] ∧
    ∀ i < 32, o.ohciIntLoad i
      = ∑ e ∈ ({4, 6} : Finset EdPtr) with i % (o.ed e).intInterval
        = (o.ed e).intBranch % (o.ed e).intInterval, ((o.ed e).intLoad : ℤ) := by
  obtain ⟨⟨o₁, o₂, o₃, o⟩, hrun, hobs⟩ :=
    Option.map_eq_some_iff.mp (show Ohci.threeIntsRun.map (fun r =>
    ([(r.1.ed 4).state, (r.2.1.ed 6).state, (r.2.2.2.ed 2).state],
      [(r.1.ed 4).type, (r.2.1.ed 6).type],
      [(r.2.2.2.ed 4).intInterval, (r.2.2.2.ed 4).intBranch, (r.2.2.2.ed 6).intInterval,
        (r.2.2.2.ed 6).intBranch],
      [0, 1, 2, 17, 18].map r.2.2.2.ohciIntLoad))
        = some ([.edUnlink, .edUnlink, .edUnlink], [.int, .int], [16, 1, 4, 2],
          [0, 3, 7, 3, 7]) by decide +kernel)
  simp only [Prod.mk.injEq] at hobs
  obtain ⟨hstates, htypes, hfields, hloads⟩ := hobs
  simp only [List.cons.injEq, and_true] at hstates htypes
  obtain ⟨⟨h4, h6, h2⟩, ht4, ht6⟩ := And.intro hstates htypes
  have hsteps := hrun
  unfold Ohci.threeIntsRun at hsteps
  obtain ⟨p₁, h₁, hsteps⟩ := Option.bind_eq_some_iff.mp hsteps
  obtain ⟨p₂, h₂, hsteps⟩ := Option.bind_eq_some_iff.mp hsteps
  obtain ⟨p₃, h₃, hsteps⟩ := Option.bind_eq_some_iff.mp hsteps
  obtain ⟨p₄, h₄, hsteps⟩ := Option.bind_eq_some_iff.mp hsteps
  simp only [Option.some.injEq, Prod.mk.injEq] at hsteps
  obtain ⟨rfl, rfl, rfl, rfl⟩ := hsteps
  have hinit : IntRun .threeInts ∅ :=
    (((IntRun.start (o := default) (fun _ => (by decide : EdState.edNew ≠ .edOper))
      (fun _ _ => rfl)).add
      1 ⟨.int, 1, 1, false, false⟩ 8 5 1).add 1 ⟨.int, 1, 2, false, false⟩ 20 3 2).add
        1 ⟨.int, 1, 3, false, false⟩ 4 7 3
  have hlinked := ((hinit.link rfl rfl h₁).link h4 ht4 h₂).link h6 ht6 h₃
  have hall := int_load_exact p₄ _ (hlinked.unlink (e := 2) (by decide) h₄)
  rw [show (insert 6 (insert 4 (insert 2 ∅)) : Finset EdPtr).erase 2 = {4, 6} from
    by decide] at hall
  refine ⟨p₁, p₂, p₃, p₄, hrun, fun e => ?_, h2, hfields, hloads, hall.1⟩
  rw [← hall.2.2.1, Finset.mem_insert, Finset.mem_singleton]

/-! ## The polling period -/

/-- **The period honours a request**: it is the largest power of two that is
not above the interval and not above 32, so that the endpoint is polled as
often as was asked for, and less than twice as often up to an interval of
32. -/
def Polled (interval intInterval : ℕ) : Prop :=
  IsGreatest {p | (∃ k, p = 2 ^ k) ∧ p ≤ min interval 32} intInterval ∧
    intInterval ≤ interval ∧ (interval ≤ 32 → interval < 2 * intInterval)

/-- The loop stops at the first power whose double is too much, or at 32. -/
theorem ep2nIntervalFrom_bounds {inter left : ℕ} (hleft : left ≤ 5)
    (hle : 2 ^ (5 - left) ≤ inter) :
    ∃ k ≤ 5, ep2nIntervalFrom inter left = 2 ^ k ∧ 2 ^ k ≤ inter ∧
      (inter < 2 * 2 ^ k ∨ k = 5) := by
  induction left with
  | zero => exact ⟨5, Nat.le_refl 5, rfl, hle, .inr rfl⟩
  | succ left ih =>
    have hdouble : 2 * 2 ^ (5 - (left + 1)) = 2 ^ (5 - left) := by
      rw [← Nat.pow_succ', Nat.succ_eq_add_one, Nat.sub_add_eq, Nat.sub_add_cancel (by omega)]
    rw [ep2nIntervalFrom, Nat.shiftRight_eq_div_pow]
    split
    · rename_i hmore
      refine ih (by omega) ?_
      rw [← hdouble]
      exact (Nat.le_div_iff_mul_le (Nat.two_pow_pos _)).mp hmore
    · rename_i hlast
      refine ⟨5 - (left + 1), by omega, Nat.one_shiftLeft _, hle, .inl ?_⟩
      exact (Nat.div_lt_iff_lt_mul (Nat.two_pow_pos _)).mp (by omega)

/-- `ep_2_n_interval` rounds down. -/
theorem ep2nInterval_bounds {inter : ℕ} (hpos : 1 ≤ inter) : ∃ k ≤ 5, ep2nInterval inter = 2 ^ k ∧
    2 ^ k ≤ inter ∧ (inter < 2 * 2 ^ k ∨ k = 5) :=
  ep2nIntervalFrom_bounds (Nat.le_refl 5) hpos

theorem isGreatest_ep2nInterval {interval : ℕ} (hpos : 1 ≤ interval) :
    IsGreatest {p | (∃ k, p = 2 ^ k) ∧ p ≤ min interval 32} (ep2nInterval interval) := by
  obtain ⟨k, hk, hval, hle, hlast⟩ := ep2nInterval_bounds hpos
  have h32 : 2 ^ k ≤ 2 ^ 5 := Nat.pow_le_pow_right (by decide) hk
  rw [hval]
  refine ⟨⟨⟨k, rfl⟩, le_min hle h32⟩, ?_⟩
  rintro p ⟨⟨j, rfl⟩, hp⟩
  have hinterval : 2 ^ j ≤ interval := hp.trans (Nat.min_le_left _ _)
  have hlimit : 2 ^ j ≤ 2 ^ 5 := hp.trans (Nat.min_le_right _ _)
  refine Nat.pow_le_pow_right (by decide) ?_
  rcases hlast with hlt | rfl
  · have hj : 2 ^ j < 2 ^ (k + 1) := by
      rw [Nat.pow_succ']
      exact hinterval.trans_lt hlt
    exact Nat.lt_succ_iff.mp ((Nat.pow_lt_pow_iff_right (by decide)).mp hj)
  · exact (Nat.pow_le_pow_iff_right (by decide)).mp hlimit

/-- **The period that honours a request** is the one of `ep_2_n_interval`. -/
theorem polled_iff_eq {interval p : ℕ} (hpos : 1 ≤ interval) :
    Polled interval p ↔ p = ep2nInterval interval := by
  constructor
  · intro h
    exact h.1.unique (isGreatest_ep2nInterval hpos)
  · rintro rfl
    obtain ⟨k, hk, hval, hle, hlast⟩ := ep2nInterval_bounds hpos
    refine ⟨isGreatest_ep2nInterval hpos, hval ▸ hle, fun h32 => ?_⟩
    rw [hval]
    rcases hlast with hlt | rfl
    · exact hlt
    · have hdouble : 2 * 2 ^ 5 = 64 := rfl
      omega

theorem ep2nInterval_eq_limit_iff (inter : ℕ) : ep2nInterval inter = 32 ↔ 32 ≤ inter := by
  by_cases hpos : 1 ≤ inter
  · obtain ⟨k, hk, hval, hle, hlast⟩ := ep2nInterval_bounds hpos
    rw [hval]
    refine ⟨fun h32 => h32 ▸ hle, fun h32 => ?_⟩
    rcases hlast with hlt | rfl
    · have hk5 : 2 ^ 5 < 2 ^ (k + 1) := by
        rw [Nat.pow_succ' (n := k)]
        exact h32.trans_lt hlt
      have hsucc := (Nat.pow_lt_pow_iff_right (by decide)).mp hk5
      obtain rfl : k = 5 := by omega
      rfl
    · rfl
  · obtain rfl : inter = 0 := by omega
    decide

/-- What `ep_add_ed` keeps of the interval. -/
theorem epAddEd_intPeriod {o o₁ : Ohci} {d : DevPtr} {pipe : Pipe} {interval load : ℕ}
    {dummy : TdPtr}
    {e : EdPtr} (hadd : epAddEd o d pipe interval load dummy = (some e, o₁))
    (hint : (o₁.ed e).type = .int) (hstate : (o₁.ed e).state = .edUnlink) :
    (o₁.ed e).intPeriod = interval % 256 := by
  have hfill : ∃ o', o₁ = fillEd o' d e pipe interval load := by
    unfold epAddEd at hadd
    dsimp only at hadd
    split at hadd
    · cases hadd
    · split at hadd
      · split at hadd
        · cases hadd
        · cases hadd
          exact ⟨_, rfl⟩
      · cases hadd
        exact ⟨_, rfl⟩
  obtain ⟨o', rfl⟩ := hfill
  unfold fillEd at hint hstate ⊢
  rw [Ohci.modEd_ed_self] at hint hstate ⊢
  dsimp only at hint hstate ⊢
  split at hint
  · rename_i hunlinked
    rw [if_pos hunlinked]
  · rename_i hlinked
    rw [if_neg hlinked] at hstate
    exact absurd ⟨hint, hstate⟩ hlinked

/-- The interval that an ED is linked with. -/
theorem intInterval_of_added {o o₁ o₂ : Ohci} {d : DevPtr} {pipe : Pipe} {interval load : ℕ}
    {dummy : TdPtr} {e : EdPtr} {fuel : ℕ}
    (hadd : epAddEd o d pipe interval load dummy = (some e, o₁)) (hint : (o₁.ed e).type = .int)
    (hstate : (o₁.ed e).state = .edUnlink) (hlink : epLink fuel o₁ e = some o₂) :
    (o₂.ed e).intInterval = ep2nInterval (interval % 256) := by
  obtain ⟨branch, -, hbooking, -⟩ := epLink_books hint hlink
  have hself := congrArg Booking.intInterval (congrFun hbooking e)
  rw [Function.update_self] at hself
  rw [← epAddEd_intPeriod hadd hint hstate]
  exact hself

/-- **When the period honours the request**: the byte `int_period` keeps the
interval, or what it keeps is still not below 32. -/
theorem polled_iff (o o₁ o₂ : Ohci) (d : DevPtr) (pipe : Pipe) (interval load : ℕ) (dummy : TdPtr)
    (e : EdPtr) (fuel : ℕ) (hpos : 1 ≤ interval)
    (hadd : epAddEd o d pipe interval load dummy = (some e, o₁)) (hint : (o₁.ed e).type = .int)
    (hstate : (o₁.ed e).state = .edUnlink) (hlink : epLink fuel o₁ e = some o₂) :
    Polled interval (o₂.ed e).intInterval ↔ interval < 256 ∨ 32 ≤ interval % 256 := by
  rw [polled_iff_eq hpos, intInterval_of_added hadd hint hstate hlink]
  by_cases hbyte : interval < 256
  · rw [Nat.mod_eq_of_lt hbyte]
    exact iff_of_true rfl (.inl hbyte)
  · have hlimit := (ep2nInterval_eq_limit_iff interval).mpr (by omega)
    rw [hlimit, ep2nInterval_eq_limit_iff]
    exact ⟨.inr, fun h => h.resolve_left hbyte⟩

/-- The first interrupt ED of a driver that has just started. -/
def Ohci.firstInt : Ohci := (epAddEd default 1 ⟨.int, 1, 1, false, false⟩ 8 1 1).2

theorem polled_iff_first : ∃ o : Ohci, epLink 40 .firstInt 2 = some o ∧
    (Polled 8 (o.ed 2).intInterval ↔ 8 < 256 ∨ 32 ≤ 8 % 256) := by
  obtain ⟨o, hlink⟩ : ∃ o, epLink 40 .firstInt 2 = some o :=
    Option.isSome_iff_exists.mp (by decide)
  exact ⟨o, hlink, polled_iff default .firstInt o 1 ⟨.int, 1, 1, false, false⟩ 8 1 1 2
    40 (by decide)
    rfl rfl rfl hlink⟩

/-- An interval of 256 is polled in every frame. -/
theorem not_polled :
    ¬ ∀ (o o₁ o₂ : Ohci) (d : DevPtr) (pipe : Pipe) (interval load : ℕ) (dummy : TdPtr)
    (e : EdPtr) (fuel : ℕ), 1 ≤ interval → epAddEd o d pipe interval load dummy = (some e, o₁) →
    (o₁.ed e).type = .int → (o₁.ed e).state = .edUnlink → epLink fuel o₁ e = some o₂ →
    Polled interval (o₂.ed e).intInterval := by
  intro hall
  have hadd : epAddEd default 1 ⟨.int, 1, 1, false, false⟩ 256 1 1
      = (some 2, (epAddEd default 1 ⟨.int, 1, 1, false, false⟩ 256 1 1).2) := rfl
  generalize ho₁ : (epAddEd default 1 ⟨.int, 1, 1, false, false⟩ 256 1 1).2 = o₁ at hadd
  obtain ⟨o₂, hlink⟩ : ∃ o₂, epLink 40 o₁ 2 = some o₂ := by
    rw [← ho₁]
    exact Option.isSome_iff_exists.mp (by decide)
  have hint : (o₁.ed 2).type = .int := ho₁ ▸ rfl
  have hstate : (o₁.ed 2).state = .edUnlink := ho₁ ▸ rfl
  have hpolled := hall default o₁ o₂ 1 ⟨.int, 1, 1, false, false⟩ 256 1 1 2 40 (by decide) hadd
    hint hstate hlink
  rw [polled_iff_eq (by decide), intInterval_of_added hadd hint hstate hlink] at hpolled
  exact absurd hpolled (by decide)
