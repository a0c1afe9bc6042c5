/-
Module: Chaotix.Proofs.ProcListing
Layer: Proofs
Purpose: Listing the root of procfs while processes come and go. What has been reported are the first items and then
  process numbers that rise to the offset, so nothing is reported twice; and a process that stays on the list has been
  reported as soon as the offset has passed its number.
Imports: Mathlib.Data.List.TakeWhile, Mathlib.Data.Nat.Digits.Lemmas, Chaotix.Kernel.ProcfsRoot, Chaotix.Proofs.SchedulerQueue
Trusted boundary: none
Main exports: pidName_injective, call_spec, ReportedUpTo, procfs_lists_each_once
-/
import Mathlib.Data.List.TakeWhile
import Mathlib.Data.Nat.Digits.Lemmas
import Chaotix.Kernel.ProcfsRoot
import Chaotix.Proofs.SchedulerQueue

namespace Chaotix

/-! ### Names of processes -/

theorem decimalDigits_lt {n d : Nat} (h : d ∈ decimalDigits n) : d < 10 := by
  unfold decimalDigits at h
  split at h
  · rw [List.mem_singleton.1 h]
    decide
  · exact Nat.digits_lt_base (by decide) (List.mem_reverse.1 h)

theorem ofDigits_decimalDigits (n : Nat) : Nat.ofDigits 10 (decimalDigits n).reverse = n := by
  unfold decimalDigits
  split
  · rename_i hzero
    rw [hzero]
    rfl
  · rw [List.reverse_reverse, Nat.ofDigits_digits]

/-- The name has room for every number. -/
theorem length_decimalDigits_le {n : Nat} (h : n < 2 ^ 31) : (decimalDigits n).length ≤ 15 := by
  unfold decimalDigits
  split
  · exact Nat.le_of_ble_eq_true rfl
  · rw [List.length_reverse]
    exact (Nat.digits_length_le_iff (by decide) n).2 (Nat.lt_trans h (by decide))

theorem chars_pidName (pid : Pid) :
    (pidName pid).chars = (decimalDigits pid).map fun d => UInt8.ofNat ('0'.toNat + d) := by
  rw [pidName]
  simp only
  rw [List.take_of_length_le (by rw [List.length_map]; exact length_decimalDigits_le pid.isLt)]
  refine List.map_congr_left fun d hd => ?_
  rw [Nat.mod_eq_of_lt (decimalDigits_lt hd)]

/-- The digits are read off the name. -/
theorem decimalDigits_eq (pid : Pid) :
    decimalDigits pid = (pidName pid).chars.map fun c => c.toNat - '0'.toNat := by
  rw [chars_pidName, List.map_map]
  refine (List.map_id _).symm.trans (List.map_congr_left fun d hd => ?_)
  have hlt := decimalDigits_lt hd
  interval_cases d <;> rfl

theorem pidName_injective {p q : Pid} (h : (pidName p).chars = (pidName q).chars) : p = q := by
  refine Fin.ext ?_
  rw [← ofDigits_decimalDigits p, ← ofDigits_decimalDigits q, decimalDigits_eq p, decimalDigits_eq q, h]

/-- The names of the items have letters. -/
theorem rootItems_ne_pidName {item : CString} (hitem : item ∈ rootItems) (pid : Pid) :
    item.chars ≠ (pidName pid).chars := by
  intro heq
  have hdigits : ∀ c ∈ (pidName pid).chars, c.toNat ≤ '9'.toNat := by
    intro c hc
    rw [chars_pidName] at hc
    obtain ⟨d, hd, rfl⟩ := List.mem_map.1 hc
    have hlt := decimalDigits_lt hd
    interval_cases d <;> decide
  rw [← heq] at hdigits
  revert hdigits
  have hletters : ∀ item ∈ rootItems, ¬∀ c ∈ item.chars, c.toNat ≤ '9'.toNat := by decide
  exact hletters item hitem

theorem nodup_rootItems : (rootItems.map (·.chars)).Nodup := by decide

/-! ### Sorted lists of processes -/

theorem sorted_insertByPid {pid : Pid} {procs : List Pid} (h : SortedByPid procs) (hfresh : 0 < pid → pid ∉ procs) :
    SortedByPid (insertByPid (fun p : Pid => ((p : Nat) : Int)) pid procs) := by
  induction procs with
  | nil => exact List.pairwise_singleton _ pid
  | cons q procs ih =>
      obtain ⟨hq, hprocs⟩ := List.pairwise_cons.1 h
      rw [insertByPid]
      split
      · rename_i hlt
        have hlt : q < pid := Int.ofNat_lt.1 hlt
        refine List.pairwise_cons.2 ⟨fun r hr => ?_, ih hprocs fun hpos hmem => hfresh hpos (List.mem_cons_of_mem q hmem)⟩
        rcases mem_insertByPid.1 hr with rfl | hr
        · exact ⟨hlt.le, fun _ => hlt⟩
        · exact hq r hr
      · rename_i hge
        have hge : pid ≤ q := Int.ofNat_le.1 (Int.not_lt.1 hge)
        refine List.pairwise_cons.2 ⟨fun r hr => ?_, h⟩
        have hqr : q ≤ r := by
          rcases List.mem_cons.1 hr with rfl | hr
          · exact le_refl r
          · exact (hq r hr).1
        refine ⟨hge.trans hqr, fun hr0 => lt_of_le_of_ne (hge.trans hqr) ?_⟩
        rintro rfl
        exact hfresh hr0 hr

theorem sorted_erase {pid : Pid} {procs : List Pid} (h : SortedByPid procs) : SortedByPid (procs.erase pid) :=
  h.sublist List.erase_sublist

/-- Behind the first processes up to a number there are only higher ones. -/
theorem lt_of_mem_dropWhile {procs : List Pid} (h : SortedByPid procs) (n : Nat) :
    ∀ q ∈ procs.dropWhile (fun it : Pid => (it : Nat) ≤ n), n < q := by
  induction procs with
  | nil => simp
  | cons q procs ih =>
      obtain ⟨hq, hprocs⟩ := List.pairwise_cons.1 h
      rw [List.dropWhile_cons]
      split
      · exact ih hprocs
      · rename_i hgt
        have hgt : n < q := Nat.lt_of_not_le fun hle => hgt (decide_eq_true hle)
        intro r hr
        rcases List.mem_cons.1 hr with rfl | hr
        · exact hgt
        · exact Nat.lt_of_lt_of_le hgt (hq r hr).1

/-- And every higher one is there. -/
theorem mem_dropWhile_of_lt {procs : List Pid} {n : Nat} {p : Pid} (hp : p ∈ procs) (hlt : n < p) :
    p ∈ procs.dropWhile fun it : Pid => (it : Nat) ≤ n := by
  rw [← List.takeWhile_append_dropWhile (p := fun it : Pid => decide ((it : Nat) ≤ n)) (l := procs)] at hp
  rcases List.mem_append.1 hp with hp | hp
  · have hle := List.mem_takeWhile_imp hp
    exact absurd (of_decide_eq_true hle) (Nat.not_le_of_lt hlt)
  · exact hp

/-! ### One call -/

/-- What a walk stores: it reports the names, and nothing is written only if nothing is reported. -/
structure ReportsNames (names : List CString) (ctx ctx' : GetdentsCtx) : Prop where
  listed : ctx'.listed = ctx.listed ++ names
  nwritten : ctx.nwritten + names.length ≤ ctx'.nwritten

theorem ReportsNames.trans {names names' : List CString} {ctx ctx' ctx'' : GetdentsCtx}
    (h : ReportsNames names ctx ctx') (h' : ReportsNames names' ctx' ctx'') :
    ReportsNames (names ++ names') ctx ctx'' := by
  constructor
  · rw [h'.listed, h.listed, List.append_assoc]
  · have hn := h.nwritten
    have hn' := h'.nwritten
    rw [List.length_append]
    omega

/-- The number of the process that was reported last, behind the count of the items. -/
def offsetAfter (new : List Pid) (offset : Nat) : Nat :=
  match new.getLast? with
  | some last => last + NUM_ITEMS
  | none => offset

theorem procfsProcessLoop_spec (procs : List Pid) (ctx : GetdentsCtx) (offset : Nat) :
    ∃ new rest, procs = new ++ rest ∧ ReportsNames (new.map pidName) ctx (procfsProcessLoop procs ctx offset).1 ∧
      (procfsProcessLoop procs ctx offset).2 = offsetAfter new offset ∧
      (rest ≠ [] → (procfsProcessLoop procs ctx offset).1.bufferIsTooSmall = true) := by
  induction procs generalizing ctx offset with
  | nil =>
      exact ⟨[], [], rfl, ⟨(List.append_nil _).symm, le_refl _⟩, rfl, fun h => absurd rfl h⟩
  | cons it procs ih =>
      by_cases hfits : ctx.remainingCount < direntSize (pidName it)
      · have hloop : procfsProcessLoop (it :: procs) ctx offset = ({ ctx with bufferIsTooSmall := true }, offset) := by
          simp [procfsProcessLoop, getdentsCallback, hfits]
        rw [hloop]
        exact ⟨[], it :: procs, rfl, ⟨(List.append_nil _).symm, le_refl _⟩, rfl, fun _ => rfl⟩
      · obtain ⟨next, hcallback, hnext⟩ : ∃ next, getdentsCallback ctx (pidName it) (modeToDirentType .S_IFDIR) =
            (true, next) ∧ ReportsNames [pidName it] ctx next := by
          refine ⟨_, by rw [getdentsCallback, if_neg hfits], rfl, ?_⟩
          exact Nat.add_le_add_left (Nat.le_trans (by decide : 1 ≤ direntNameOffset) (Nat.le_add_right _ _)) _
        have hloop : procfsProcessLoop (it :: procs) ctx offset = procfsProcessLoop procs next (it + NUM_ITEMS) := by
          rw [procfsProcessLoop, hcallback]
          rfl
        obtain ⟨new, rest, hsplit, hreports, hoffset, hrest⟩ := ih next (it + NUM_ITEMS)
        rw [hloop]
        refine ⟨it :: new, rest, by rw [hsplit, List.cons_append], hnext.trans hreports, ?_, hrest⟩
        rw [hoffset, offsetAfter, offsetAfter, List.getLast?_cons]
        cases new.getLast? with
        | none => rfl
        | some last => rfl

theorem reportsNames_dentryGetdentsLoop {entries : List (Dentry CString FileType)} {ctx ctx' : GetdentsCtx}
    (h : StoresDirents entries ctx ctx') : ReportsNames (entries.map (·.name)) ctx ctx' := by
  refine ⟨h.listed, ?_⟩
  rw [h.nwritten]
  refine Nat.add_le_add_left ?_ _
  rw [direntsBytes, List.length_flatMap, List.length_map]
  let sizes := entries.map fun dentry => (direntBytes dentry.name (modeToDirentType dentry.inode)).length
  have hpos : ∀ size ∈ sizes, 1 ≤ size := by
    intro size hsize
    obtain ⟨dentry, _, rfl⟩ := List.mem_map.1 hsize
    rw [length_direntBytes]
    exact Nat.le_trans (by decide : 1 ≤ direntNameOffset) (Nat.le_add_right _ _)
  calc entries.length = sizes.length := (List.length_map _).symm
    _ ≤ sizes.sum := List.length_le_sum_of_one_le sizes hpos

/-- What the walk over the root does: it lists items from the offset on, and once none is left it goes on with the
    processes behind the offset. Where something is left, the buffer was too small. -/
theorem procfsRootGetdents_spec (procs : List Pid) (ctx : GetdentsCtx) (offset : Nat) :
    ∃ items left new, rootItems.drop offset = items ++ left ∧
      ReportsNames (items ++ new.map pidName) ctx (procfsRootGetdents procs ctx offset).1 ∧
      (left ≠ [] ∧ new = [] ∧ (procfsRootGetdents procs ctx offset).2 = offset + items.length ∧
          (procfsRootGetdents procs ctx offset).1.bufferIsTooSmall = true ∨
        left = [] ∧ ∃ others,
          (procs.dropWhile fun it : Pid => (it : Nat) ≤ offset + items.length - NUM_ITEMS) = new ++ others ∧
          (procfsRootGetdents procs ctx offset).2 = offsetAfter new (offset + items.length) ∧
          (others ≠ [] → (procfsRootGetdents procs ctx offset).1.bufferIsTooSmall = true)) := by
  have hchildren : (rootChildren.drop offset).map (·.name) = rootItems.drop offset := by
    rw [List.map_drop]
    rfl
  by_cases hoffset : offset < NUM_ITEMS
  · obtain ⟨entries, rest, hsplit, hstored, hnext, _, hend⟩ :=
      dentryGetdentsLoop_spec (rootChildren.drop offset) ctx offset
    have hreports := reportsNames_dentryGetdentsLoop hstored
    rw [hsplit, List.map_append] at hchildren
    have hcount : offset + entries.length + rest.length = NUM_ITEMS := by
      have hlength := congrArg List.length hsplit
      rw [List.length_drop, List.length_append] at hlength
      have htotal : rootChildren.length = NUM_ITEMS := List.length_map _
      omega
    have hroot : procfsRootGetdents procs ctx offset =
        if offset + entries.length < NUM_ITEMS then
          ((dentryGetdentsLoop (rootChildren.drop offset) ctx offset).1, offset + entries.length)
        else
          procfsProcessLoop (procs.dropWhile fun it : Pid => (it : Nat) ≤ offset + entries.length - NUM_ITEMS)
            (dentryGetdentsLoop (rootChildren.drop offset) ctx offset).1 (offset + entries.length) := by
      rw [procfsRootGetdents, if_pos hoffset, dentryGetdents, ← hnext]
    rw [hroot]
    by_cases hleft : offset + entries.length < NUM_ITEMS
    · rw [if_pos hleft]
      refine ⟨entries.map (·.name), rest.map (·.name), [], hchildren.symm, ?_, Or.inl ⟨?_, rfl, ?_, ?_⟩⟩
      · rwa [List.map_nil, List.append_nil]
      · rintro hnil
        rw [List.map_eq_nil_iff] at hnil
        rw [hnil] at hcount
        exact Nat.ne_of_lt hleft hcount
      · rw [List.length_map]
      · rcases hend with ⟨rfl, _⟩ | ⟨_, _, _, _, hsmall⟩
        · exact absurd hcount (Nat.ne_of_lt hleft)
        · exact hsmall
    · rw [if_neg hleft]
      have hrest : rest = [] := List.length_eq_zero_iff.1 (by omega)
      obtain ⟨new, others, hnew, hprocs, hlast, hothers⟩ := procfsProcessLoop_spec
        (procs.dropWhile fun it : Pid => (it : Nat) ≤ offset + entries.length - NUM_ITEMS)
        (dentryGetdentsLoop (rootChildren.drop offset) ctx offset).1 (offset + entries.length)
      refine ⟨entries.map (·.name), rest.map (·.name), new, hchildren.symm, hreports.trans hprocs,
        Or.inr ⟨by rw [hrest, List.map_nil], others, ?_⟩⟩
      rw [List.length_map]
      exact ⟨hnew, hlast, hothers⟩
  · have hroot : procfsRootGetdents procs ctx offset =
        procfsProcessLoop (procs.dropWhile fun it : Pid => (it : Nat) ≤ offset - NUM_ITEMS) ctx offset := by
      rw [procfsRootGetdents, if_neg hoffset]
      exact if_neg hoffset
    rw [hroot]
    obtain ⟨new, others, hnew, hprocs, hlast, hothers⟩ := procfsProcessLoop_spec
      (procs.dropWhile fun it : Pid => (it : Nat) ≤ offset - NUM_ITEMS) ctx offset
    exact ⟨[], [], new, List.drop_of_length_le (Nat.le_of_not_lt hoffset), hprocs,
      Or.inr ⟨rfl, others, hnew, hlast, hothers⟩⟩

/-- What one call reports, and where it leaves the offset. -/
theorem call_spec (s : ProcListing) (mem : Nat → UInt8) (count : Nat) :
    ∃ items left new, rootItems.drop s.offset = items ++ left ∧
      (s.call mem count).listed = items ++ new.map pidName ∧
      (left ≠ [] ∧ new = [] ∧ (s.call mem count).offset = s.offset + items.length ∧
          (s.call mem count).result ≠ .ok 0 ∨
        left = [] ∧ ∃ others,
          (s.allProcesses.dropWhile fun it : Pid => (it : Nat) ≤ s.offset + items.length - NUM_ITEMS) = new ++ others ∧
          (s.call mem count).offset = offsetAfter new (s.offset + items.length) ∧
          ((s.call mem count).result = .ok 0 → items = [] ∧ new = [] ∧ others = [])) := by
  obtain ⟨items, left, new, hitems, hreports, hend⟩ :=
    procfsRootGetdents_spec s.allProcesses { mem := mem, remainingCount := count } s.offset
  unfold ProcListing.call fileDescriptionGetdents
  generalize procfsRootGetdents s.allProcesses { mem := mem, remainingCount := count } s.offset = r at hreports hend ⊢
  obtain ⟨ctx, offset⟩ := r
  simp only at hreports hend ⊢
  have hlisted : ctx.listed = items ++ new.map pidName := hreports.listed
  have hnwritten : (items ++ new.map pidName).length ≤ ctx.nwritten := (Nat.zero_add _).symm.trans_le hreports.nwritten
  refine ⟨items, left, new, hitems, hlisted, ?_⟩
  rcases hend with ⟨hleft, hnew, hoffset, hsmall⟩ | ⟨hleft, others, hothers, hoffset, hsmall⟩
  · refine Or.inl ⟨hleft, hnew, hoffset, fun hzero => ?_⟩
    by_cases hnone : ctx.nwritten = 0
    · rw [if_pos ⟨hnone, hsmall⟩] at hzero
      cases hzero
    · rw [if_neg fun h => hnone h.1] at hzero
      exact hnone (Except.ok.inj hzero)
  · refine Or.inr ⟨hleft, others, hothers, hoffset, fun hzero => ?_⟩
    have hnone : ctx.nwritten = 0 ∧ ctx.bufferIsTooSmall ≠ true := by
      by_cases hnone : ctx.nwritten = 0 ∧ ctx.bufferIsTooSmall = true
      · rw [if_pos hnone] at hzero
        cases hzero
      · rw [if_neg hnone] at hzero
        have hzero := Except.ok.inj hzero
        exact ⟨hzero, fun h => hnone ⟨hzero, h⟩⟩
    rw [hnone.1, Nat.le_zero, List.length_eq_zero_iff, List.append_eq_nil_iff, List.map_eq_nil_iff] at hnwritten
    exact ⟨hnwritten.1, hnwritten.2, by_contra fun h => hnone.2 (hsmall h)⟩

/-! ### Runs -/

/-- What a description has reported: items up to its offset, and then the processes of rising numbers, none behind the
    offset. -/
structure ReportedUpTo (s : ProcListing) (pids : List Pid) : Prop where
  sorted : SortedByPid s.allProcesses
  rising : pids.Pairwise (· < ·)
  upTo : ∀ p ∈ pids, (p : Nat) + NUM_ITEMS ≤ s.offset
  reported : s.reported = (rootItems.take s.offset ++ pids.map pidName).map (·.chars)

/-- A process is reported when the offset passes its number. -/
def ReportsPassed (pid : Pid) (s : ProcListing) : Prop :=
  (pid : Nat) + NUM_ITEMS ≤ s.offset → (pidName pid).chars ∈ s.reported

theorem le_offsetAfter {new : List Pid} {offset : Nat} (h : ∀ q ∈ new, offset < (q : Nat) + NUM_ITEMS) :
    offset ≤ offsetAfter new offset := by
  rw [offsetAfter]
  cases hlast : new.getLast? with
  | none => exact le_refl offset
  | some last => exact (h last (List.mem_of_getLast? hlast)).le

/-- The last process of a rising list is the highest. -/
theorem add_le_offsetAfter {new : List Pid} {offset : Nat} (hrising : new.Pairwise (· < ·)) {q : Pid} (hq : q ∈ new) :
    (q : Nat) + NUM_ITEMS ≤ offsetAfter new offset := by
  obtain ⟨init, last, rfl⟩ := List.eq_nil_or_concat new |>.resolve_left (List.ne_nil_of_mem hq)
  rw [List.concat_eq_append] at hq hrising ⊢
  rw [offsetAfter, List.getLast?_concat]
  rcases List.mem_append.1 hq with hq | hq
  · have hlt := (List.pairwise_append.1 hrising).2.2 q hq last (List.mem_singleton_self last)
    exact Nat.add_le_add_right (Nat.le_of_lt hlt) NUM_ITEMS
  · rw [List.mem_singleton.1 hq]

/-- Where a call that has come to the processes takes them from: behind all that were reported before. -/
structure Resumes (s : ProcListing) (items : List CString) (new others : List Pid) (from' : Nat) : Prop where
  rest : rootItems.drop s.offset = items
  passed : s.offset + items.length = from' + NUM_ITEMS
  walk : (s.allProcesses.dropWhile fun it : Pid => (it : Nat) ≤ from') = new ++ others

theorem resumes_of_call {s : ProcListing} {items : List CString} {new others : List Pid}
    (hrest : rootItems.drop s.offset = items)
    (hwalk : (s.allProcesses.dropWhile fun it : Pid => (it : Nat) ≤ s.offset + items.length - NUM_ITEMS) =
      new ++ others) : Resumes s items new others (s.offset + items.length - NUM_ITEMS) := by
  refine ⟨hrest, ?_, hwalk⟩
  have hlength := congrArg List.length hrest
  rw [List.length_drop] at hlength
  have hitems : rootItems.length = NUM_ITEMS := rfl
  omega

section Resumes

variable {s : ProcListing} {items : List CString} {new others : List Pid} {from' : Nat}

theorem Resumes.lt (h : Resumes s items new others from') (hsorted : SortedByPid s.allProcesses) :
    ∀ q ∈ new ++ others, from' < q := by
  rw [← h.walk]
  exact lt_of_mem_dropWhile hsorted from'

theorem Resumes.rising (h : Resumes s items new others from') (hsorted : SortedByPid s.allProcesses) :
    (new ++ others).Pairwise (· < ·) := by
  have hwalk := hsorted.sublist (List.dropWhile_sublist fun it : Pid => (it : Nat) ≤ from')
  rw [h.walk] at hwalk
  refine hwalk.imp_of_mem fun {p q} _ hq hpq => hpq.2 ?_
  exact Nat.lt_of_le_of_lt (Nat.zero_le from') (h.lt hsorted q hq)

theorem Resumes.offset_le (h : Resumes s items new others from') (hsorted : SortedByPid s.allProcesses) :
    from' + NUM_ITEMS ≤ offsetAfter new (from' + NUM_ITEMS) := by
  refine le_offsetAfter fun q hq => Nat.add_lt_add_right ?_ NUM_ITEMS
  exact h.lt hsorted q (List.mem_append_left others hq)

end Resumes

theorem reportedUpTo_call {s : ProcListing} {pids : List Pid} (h : ReportedUpTo s pids) (mem : Nat → UInt8)
    (count : Nat) :
    ∃ new, ReportedUpTo { s with
      offset := (s.call mem count).offset
      reported := s.reported ++ (s.call mem count).listed.map (·.chars) } (pids ++ new) := by
  obtain ⟨items, left, new, hitems, hlisted, hend⟩ := call_spec s mem count
  -- processes have been reported only after the last item
  have hswap : pids.map pidName ++ items = items ++ pids.map pidName := by
    cases hpids : pids with
    | nil => simp
    | cons p _ =>
        have hp := h.upTo p (hpids ▸ List.mem_cons_self)
        have hdrop : rootItems.drop s.offset = [] :=
          List.drop_of_length_le ((Nat.le_add_left NUM_ITEMS p).trans hp)
        rw [hdrop] at hitems
        rw [(List.append_eq_nil_iff.1 hitems.symm).1]
        simp
  have hnames : s.reported ++ (s.call mem count).listed.map (·.chars) =
      ((rootItems.take s.offset ++ items) ++ (pids ++ new).map pidName).map (·.chars) := by
    rw [h.reported, hlisted, ← List.map_append]
    congr 1
    calc rootItems.take s.offset ++ pids.map pidName ++ (items ++ new.map pidName)
        = rootItems.take s.offset ++ (pids.map pidName ++ items) ++ new.map pidName := by simp only [List.append_assoc]
      _ = rootItems.take s.offset ++ items ++ (pids ++ new).map pidName := by
          rw [hswap, List.map_append]
          simp only [List.append_assoc]
  rcases hend with ⟨hleft, rfl, hoffset, _⟩ | ⟨rfl, others, hothers, hoffset, _⟩
  · refine ⟨[], h.sorted, ?_, ?_, ?_⟩
    · rw [List.append_nil]
      exact h.rising
    · intro p hp
      rw [List.append_nil] at hp
      exact (h.upTo p hp).trans (hoffset ▸ Nat.le_add_right s.offset items.length)
    · simp only
      rw [hnames, hoffset, List.take_add, hitems, List.take_left]
  · rw [List.append_nil] at hitems
    have hresumes := resumes_of_call hitems hothers
    rw [hresumes.passed] at hoffset
    generalize s.offset + items.length - NUM_ITEMS = from' at hresumes hoffset
    have hrising := hresumes.rising h.sorted
    have hle := hresumes.offset_le h.sorted
    have hbelow : ∀ p ∈ pids, (p : Nat) ≤ from' := by
      intro p hp
      have hup := h.upTo p hp
      have hpassed := hresumes.passed
      omega
    refine ⟨new, h.sorted, ?_, ?_, ?_⟩
    · refine List.pairwise_append.2 ⟨h.rising, (List.pairwise_append.1 hrising).1, fun p hp q hq => ?_⟩
      exact Nat.lt_of_le_of_lt (hbelow p hp) (hresumes.lt h.sorted q (List.mem_append_left others hq))
    · intro p hp
      simp only
      rw [hoffset]
      rcases List.mem_append.1 hp with hp | hp
      · exact (Nat.add_le_add_right (hbelow p hp) NUM_ITEMS).trans hle
      · exact add_le_offsetAfter (List.pairwise_append.1 hrising).1 hp
    · simp only
      rw [hnames, ← hitems, List.take_append_drop, hoffset,
        List.take_of_length_le ((Nat.le_add_left NUM_ITEMS from').trans hle)]

/-- A process on the list is reported as the offset passes it: the walk takes the processes in order. -/
theorem reportsPassed_call {s : ProcListing} (hsorted : SortedByPid s.allProcesses) {pid : Pid} (hpos : 0 < pid)
    (hmem : pid ∈ s.allProcesses) (h : ReportsPassed pid s) (mem : Nat → UInt8) (count : Nat) :
    ReportsPassed pid { s with
      offset := (s.call mem count).offset
      reported := s.reported ++ (s.call mem count).listed.map (·.chars) } := by
  intro hpassed
  simp only at hpassed ⊢
  by_cases hbefore : (pid : Nat) + NUM_ITEMS ≤ s.offset
  · exact List.mem_append_left _ (h hbefore)
  refine List.mem_append_right _ (List.mem_map_of_mem ?_)
  obtain ⟨items, left, new, hitems, hlisted, hend⟩ := call_spec s mem count
  rw [hlisted]
  rcases hend with ⟨hleft, _, hoffset, _⟩ | ⟨rfl, others, hothers, hoffset, _⟩
  · -- the offset still counts items
    have hlength := congrArg List.length hitems
    rw [List.length_drop, List.length_append] at hlength
    have hnonempty := List.length_pos_of_ne_nil hleft
    have hcount : rootItems.length = NUM_ITEMS := rfl
    rw [hoffset] at hpassed
    omega
  · rw [List.append_nil] at hitems
    have hresumes := resumes_of_call hitems hothers
    rw [hresumes.passed] at hoffset
    generalize s.offset + items.length - NUM_ITEMS = from' at hresumes hoffset
    have hfrom : from' < pid := by
      have hpassed := hresumes.passed
      have hlength := congrArg List.length hresumes.rest
      rw [List.length_drop] at hlength
      have hcount : rootItems.length = NUM_ITEMS := rfl
      have hpos : 0 < (pid : Nat) := hpos
      omega
    have hwalk := mem_dropWhile_of_lt hmem hfrom
    rw [hresumes.walk] at hwalk
    rcases List.mem_append.1 hwalk with hnew | hnew
    · exact List.mem_append_right items (List.mem_map_of_mem hnew)
    · -- all that were taken are before it, and so is the offset
      exfalso
      have hbeyond := (List.pairwise_append.1 (hresumes.rising hsorted)).2.2
      rw [hoffset, offsetAfter] at hpassed
      cases hlast : new.getLast? with
      | none =>
          rw [hlast] at hpassed
          simp only at hpassed
          omega
      | some last =>
          rw [hlast] at hpassed
          have hlt : (last : Nat) < pid := hbeyond last (List.mem_of_getLast? hlast) pid hnew
          simp only at hpassed
          omega

section Runs

variable {s t : ProcListing} {xs : List (Transition ProcListing ProcEvent)}

theorem reportedUpTo_step {e : ProcEvent} (h : ∃ pids, ReportedUpTo s pids) (hstep : ProcStep s e t) :
    ∃ pids, ReportedUpTo t pids := by
  obtain ⟨pids, h⟩ := h
  cases hstep with
  | getdents mem count caller =>
      obtain ⟨new, hnew⟩ := reportedUpTo_call h mem count
      exact ⟨pids ++ new, hnew⟩
  | register pid fresh =>
      exact ⟨pids, sorted_insertByPid h.sorted fresh, h.rising, h.upTo, h.reported⟩
  | reap pid member =>
      exact ⟨pids, sorted_erase h.sorted, h.rising, h.upTo, h.reported⟩

theorem reportsPassed_step {e : ProcEvent} {pid : Pid} (hpos : 0 < pid)
    (h : (∃ pids, ReportedUpTo s pids) ∧ ReportsPassed pid s) (hmem : pid ∈ s.allProcesses) (hstep : ProcStep s e t) :
    (∃ pids, ReportedUpTo t pids) ∧ ReportsPassed pid t := by
  refine ⟨reportedUpTo_step h.1 hstep, ?_⟩
  cases hstep with
  | getdents mem count caller =>
      obtain ⟨⟨pids, hpids⟩, h⟩ := h
      exact reportsPassed_call hpids.sorted hpos hmem h mem count
  | register pid fresh => exact h.2
  | reap pid member => exact h.2

theorem reportedUpTo_init (hinit : procListingSystem.init s) : ReportedUpTo s [] := by
  obtain ⟨hsorted, hoffset, hreported⟩ := hinit
  refine ⟨hsorted, List.Pairwise.nil, fun p hp => absurd hp List.not_mem_nil, ?_⟩
  rw [hreported, hoffset]
  rfl

/-- Nothing has been reported twice. -/
theorem ReportedUpTo.nodup {pids : List Pid} (h : ReportedUpTo s pids) : s.reported.Nodup := by
  rw [h.reported, List.map_append, List.map_map]
  refine List.nodup_append.2 ⟨?_, ?_, ?_⟩
  · exact nodup_rootItems.sublist ((List.take_sublist s.offset rootItems).map _)
  · refine List.Nodup.map_on (fun p _ q _ hpq => pidName_injective hpq) ?_
    exact h.rising.imp fun hpq => ne_of_lt hpq
  · intro a ha b hb
    obtain ⟨item, hitem, rfl⟩ := List.mem_map.1 ha
    obtain ⟨p, _, rfl⟩ := List.mem_map.1 hb
    exact rootItems_ne_pidName (List.mem_of_mem_take hitem) p

/-- In every run of one description, no process number is reported twice. Where a call returns zero, each item has
    been reported once, and so has every process above zero that was on the list all the time. -/
theorem procfs_lists_each_once (run : procListingSystem.Run s xs t) (hinit : procListingSystem.init s) :
    (∀ pid : Pid, t.reported.count (pidName pid).chars ≤ 1) ∧
      ∀ mem count, t.allProcesses ≠ [] → (t.call mem count).result = .ok 0 →
        (t.call mem count).listed = [] ∧ (∀ item ∈ rootItems, t.reported.count item.chars = 1) ∧
          ∀ pid : Pid, 0 < pid → (∀ x ∈ xs, pid ∈ x.before.allProcesses) → pid ∈ t.allProcesses →
            t.reported.count (pidName pid).chars = 1 := by
  obtain ⟨pids, hpids⟩ :=
    run.invariant (fun s => ∃ pids, ReportedUpTo s pids) (fun s e s' => reportedUpTo_step) ⟨[], reportedUpTo_init hinit⟩
  refine ⟨fun pid => List.nodup_iff_count_le_one.1 hpids.nodup _, fun mem count _ hzero => ?_⟩
  obtain ⟨items, left, new, hitems, hlisted, hend⟩ := call_spec t mem count
  rcases hend with ⟨_, _, _, hresult⟩ | ⟨rfl, others, hothers, hoffset, hresult⟩
  · exact absurd hzero hresult
  obtain ⟨rfl, rfl, rfl⟩ := hresult hzero
  have hoffsetItems : NUM_ITEMS ≤ t.offset := List.drop_eq_nil_iff.1 hitems
  refine ⟨hlisted, fun item hitem => ?_, fun pid hpos hall hmem => ?_⟩
  · refine List.count_eq_one_of_mem hpids.nodup ?_
    rw [hpids.reported, List.take_of_length_le hoffsetItems]
    exact List.mem_map_of_mem (List.mem_append_left _ hitem)
  · have hpassed : ReportsPassed pid t := by
      refine (run.guarded_invariant (fun s => (∃ pids, ReportedUpTo s pids) ∧ ReportsPassed pid s)
        (fun s e s' h (hmem : pid ∈ s.allProcesses) => reportsPassed_step hpos h hmem)
        ⟨⟨[], reportedUpTo_init hinit⟩, fun hle => ?_⟩ hall).2
      rw [hinit.2.1] at hle
      exact absurd hle (Nat.not_succ_le_zero _)
    refine List.count_eq_one_of_mem hpids.nodup (hpassed ?_)
    by_contra hbehind
    have hwalk := mem_dropWhile_of_lt hmem (n := t.offset + ([] : List CString).length - NUM_ITEMS) (by
      simp only [List.length_nil]
      omega)
    rw [hothers] at hwalk
    exact absurd hwalk List.not_mem_nil

end Runs

/-- One process is listed by the first call, and the second returns zero. -/
theorem procfs_lists_one_process :
    ∃ t : ProcListing, (t.call (fun _ => 0) 1024).listed = [] ∧ t.reported.count (pidName 1).chars = 1 := by
  let s : ProcListing := { allProcesses := [1], offset := 0, reported := [] }
  have hcaller : s.allProcesses ≠ [] := List.cons_ne_nil 1 []
  have run : procListingSystem.Run s _ _ := .cons (ProcStep.getdents (fun _ => 0) 1024 hcaller) (.nil _)
  have hoffset : (s.call (fun _ => 0) 1024).offset = 4 := by decide
  obtain ⟨_, hend⟩ := procfs_lists_each_once run ⟨List.pairwise_singleton _ 1, rfl, rfl⟩
  obtain ⟨hlisted, _, hprocs⟩ := hend (fun _ => 0) 1024 hcaller (by rw [hoffset]; rfl)
  refine ⟨_, hlisted, hprocs 1 (by decide) ?_ (List.mem_singleton_self 1)⟩
  intro x hx
  rw [List.mem_singleton.1 hx]
  exact List.mem_singleton_self 1

end Chaotix
