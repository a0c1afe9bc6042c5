/-
Module: Chaotix.Proofs.ListingRuns
Layer: Proofs
Purpose: A directory that does not change is enumerated completely. Each call of `file_description_getdents` delivers the
  longest run of the next entries that fits the buffer, and the offset of the description counts what has been
  delivered, so that the calls together deliver the entries in order, each once. The test of `rmdir` for an empty
  directory rests on the two answers at the end and in front of a record that does not fit.
Imports: Chaotix.Proofs.DirectoryListing
Trusted boundary: none
Main exports: LongestRun, GetdentsLaw, getdents_law, enumeration_complete, makeSureDirectoryIsEmpty_iff
-/
import Chaotix.Proofs.DirectoryListing

namespace Chaotix

/-! ### Runs of entries that fit -/

section Fits

variable {entries rest : List (Dentry CString FileType)} {count : Nat}

/-- The longest run of entries at the front whose records fit into a buffer of a size. -/
structure LongestRun (entries : List (Dentry CString FileType)) (count n : Nat) : Prop where
  le_length : n ≤ entries.length
  fits : (direntsBytes (entries.take n)).length ≤ count
  longest : ∀ m, m ≤ entries.length → (direntsBytes (entries.take m)).length ≤ count → m ≤ n

theorem direntsBytes_append (entries rest : List (Dentry CString FileType)) :
    direntsBytes (entries ++ rest) = direntsBytes entries ++ direntsBytes rest := List.flatMap_append

/-- A run that is followed by the end or by a record that does not fit any more is the longest one. -/
theorem longestRun_of_end (hfits : (direntsBytes entries).length ≤ count)
    (hend : rest = [] ∨ ∃ dentry rest', rest = dentry :: rest' ∧
      count < (direntsBytes entries).length + direntSize dentry.name) :
    LongestRun (entries ++ rest) count entries.length := by
  constructor
  · simp
  · rwa [List.take_left]
  · intro m hm hle
    rcases hend with rfl | ⟨dentry, rest', rfl, hlt⟩
    · simpa using hm
    · -- a longer run contains the record that does not fit
      by_contra hgt
      have htake : (entries ++ dentry :: rest').take m =
          entries ++ dentry :: rest'.take (m - (entries.length + 1)) := by
        rw [List.take_append, List.take_of_length_le (by omega),
          show m - entries.length = m - (entries.length + 1) + 1 by omega, List.take_succ_cons]
      rw [htake, direntsBytes_append, List.length_append, length_direntsBytes_cons] at hle
      omega

end Fits

/-! ### One call -/

/-- What a call promises: the next entries that fit, `EINVAL` in front of one that does not, and zero at the end. -/
structure GetdentsLaw (entries : List (Dentry CString FileType)) (offset count : Nat) (call : GetdentsResult) : Prop where
  delivers : ∃ n, LongestRun (entries.drop offset) count n ∧ call.offset = offset + n ∧
    call.listed = ((entries.drop offset).take n).map (·.name) ∧
    BytesAt call.mem 0 (direntsBytes ((entries.drop offset).take n)) ∧
    ∀ k, call.result = .ok k → k = (direntsBytes ((entries.drop offset).take n)).length
  invalid : call.result = .error .EINVAL ↔
    ∃ dentry rest, entries.drop offset = dentry :: rest ∧ count < direntSize dentry.name
  failed : ∀ e, call.result = .error e → e = .EINVAL ∧ call.offset = offset
  done : call.result = .ok 0 ↔ entries.length ≤ offset

/-- Records have bytes, so a run without bytes is empty. -/
theorem length_direntsBytes_pos (dentry : Dentry CString FileType) (entries : List (Dentry CString FileType)) :
    0 < (direntsBytes (dentry :: entries)).length := by
  rw [length_direntsBytes_cons]
  exact Nat.add_pos_left (direntSize_pos dentry.name) _

theorem getdents_law (entries : List (Dentry CString FileType)) (offset : Nat) (mem : Nat → UInt8) (count : Nat) :
    GetdentsLaw entries offset count (fileDescriptionGetdents (dentryGetdents entries) offset mem count) := by
  obtain ⟨stored, rest, hsplit, hstored, hoffset, hfits, hend⟩ :=
    dentryGetdentsLoop_spec (entries.drop offset) { mem := mem, remainingCount := count } offset
  have hlongest : LongestRun (entries.drop offset) count stored.length := by
    rw [hsplit]
    apply longestRun_of_end hfits
    rcases hend with ⟨hnil, -⟩ | ⟨dentry, rest', hrest, hlt, -⟩
    · exact .inl hnil
    · exact .inr ⟨dentry, rest', hrest, hlt⟩
  have htake : (entries.drop offset).take stored.length = stored := by rw [hsplit, List.take_left]
  unfold fileDescriptionGetdents dentryGetdents
  generalize dentryGetdentsLoop (entries.drop offset) { mem := mem, remainingCount := count } offset = r
    at hstored hoffset hend ⊢
  obtain ⟨ctx, offset'⟩ := r
  simp only at hstored hoffset hend hfits ⊢
  have hnwritten : ctx.nwritten = (direntsBytes stored).length := hstored.nwritten.trans (Nat.zero_add _)
  have hlisted : ctx.listed = stored.map (·.name) := hstored.listed
  -- an error is there exactly when nothing was stored and there is a record that does not fit
  have herror : ctx.nwritten = 0 ∧ ctx.bufferIsTooSmall = true ↔
      ∃ dentry rest, entries.drop offset = dentry :: rest ∧ count < direntSize dentry.name := by
    constructor
    · rintro ⟨hzero, hsmall⟩
      cases stored with
      | cons dentry stored =>
          have hpos := length_direntsBytes_pos dentry stored
          omega
      | nil =>
          rcases hend with ⟨-, hnot⟩ | ⟨dentry, rest', hrest, hlt, -⟩
          · rw [hsmall] at hnot
            cases hnot
          · refine ⟨dentry, rest', by rw [hsplit, hrest, List.nil_append], ?_⟩
            exact Nat.lt_of_lt_of_eq hlt (Nat.zero_add _)
    · rintro ⟨dentry, rest', hdrop, hlt⟩
      cases stored with
      | cons first stored =>
          rw [hdrop, List.cons_append] at hsplit
          obtain ⟨rfl, -⟩ := List.cons.inj hsplit
          rw [length_direntsBytes_cons] at hfits
          omega
      | nil =>
          rcases hend with ⟨rfl, -⟩ | ⟨_, _, _, _, hsmall⟩
          · rw [hdrop] at hsplit
            cases hsplit
          · exact ⟨hnwritten, hsmall⟩
  constructor
  case delivers =>
    refine ⟨stored.length, hlongest, hoffset, ?_, ?_, ?_⟩
    · rw [htake, hlisted]
    · rw [htake]
      exact hstored.bytes
    · intro k hk
      rw [htake]
      split at hk
      · cases hk
      · exact (Except.ok.inj hk).symm.trans hnwritten
  case invalid =>
    rw [← herror]
    split <;> simp_all
  case failed =>
    intro e he
    split at he
    · rename_i hnone
      obtain rfl := Except.error.inj he
      have hzero : stored.length = 0 := by
        cases stored with
        | nil => rfl
        | cons dentry stored =>
            have hpos := length_direntsBytes_pos dentry stored
            omega
      refine ⟨rfl, ?_⟩
      change offset' = offset
      omega
    · cases he
  case done =>
    rw [← List.drop_eq_nil_iff]
    constructor
    · intro hok
      split at hok
      · cases hok
      · rename_i hnot
        have hzero : ctx.nwritten = 0 := Except.ok.inj hok
        cases stored with
        | cons dentry stored =>
            have hpos := length_direntsBytes_pos dentry stored
            omega
        | nil =>
            rcases hend with ⟨hnil, -⟩ | ⟨_, _, _, _, hsmall⟩
            · rw [hsplit, hnil, List.nil_append]
            · exact absurd ⟨hzero, hsmall⟩ hnot
    · intro hnil
      rw [hnil] at hsplit
      obtain ⟨rfl, rfl⟩ := List.nil_eq_append_iff.1 hsplit
      have hnot : ¬(ctx.nwritten = 0 ∧ ctx.bufferIsTooSmall = true) := by
        rw [herror, hnil]
        rintro ⟨_, _, hcons, _⟩
        cases hcons
      rw [if_neg hnot, hnwritten]
      rfl

/-! ### Runs -/

/-- A call goes on from the offset: it delivers the entries up to the new one. -/
theorem GetdentsLaw.advances {entries : List (Dentry CString FileType)} {offset count : Nat} {call : GetdentsResult}
    (h : GetdentsLaw entries offset count call) (hoffset : offset ≤ entries.length) :
    call.offset ≤ entries.length ∧
      (entries.take call.offset).map (·.name) = (entries.take offset).map (·.name) ++ call.listed := by
  obtain ⟨n, hlongest, hnext, hlisted, -⟩ := h.delivers
  have hle := hlongest.le_length
  rw [List.length_drop] at hle
  constructor
  · omega
  · rw [hnext, hlisted, List.take_add, List.map_append]

/-- Enumerating a directory is complete: the names delivered so far are the first `desc->offset` entries in order, and
    each call delivers the longest run of next entries that fits, fails when there is a next entry that does not, and
    returns zero when all have been delivered. -/
theorem enumeration_complete (entries : List (Dentry CString FileType)) :
    ∀ start xs offset, (listingSystem entries).init start → (listingSystem entries).Run start xs offset →
      offset ≤ entries.length ∧
        xs.flatMap (·.event.call.listed) = (entries.take offset).map (·.name) ∧
        ∀ x ∈ xs, x.before ≤ entries.length ∧ x.after = x.event.call.offset ∧
          GetdentsLaw entries x.before x.event.count x.event.call := by
  rintro start xs offset hstart run
  obtain rfl : start = 0 := hstart
  have hlaw : ∀ before e after, (listingSystem entries).step before e after →
      after = e.call.offset ∧ GetdentsLaw entries before e.count e.call := by
    rintro before e after ⟨hcall, hafter⟩
    exact ⟨hafter, hcall ▸ getdents_law entries before e.mem e.count⟩
  have hadvance : ∀ before e after, before ≤ entries.length → (listingSystem entries).step before e after →
      after ≤ entries.length ∧ (entries.take after).map (·.name) = (entries.take before).map (·.name) ++ e.call.listed := by
    intro before e after hbefore hstep
    obtain ⟨rfl, h⟩ := hlaw before e after hstep
    exact h.advances hbefore
  have hcollect := run.guarded_collect
    (fun offset names => offset ≤ entries.length ∧ names = (entries.take offset).map (·.name)) (·.call.listed)
    (fun before e after names hnames (_ : True) hstep =>
      ⟨(hadvance before e after hnames.1 hstep).1, hnames.2 ▸ (hadvance before e after hnames.1 hstep).2.symm⟩)
    ⟨Nat.zero_le _, by simp⟩ fun _ _ => trivial
  have hbounds := run.guarded_invariant_mem (fun offset => offset ≤ entries.length)
    (fun before e after hbefore (_ : True) hstep => (hadvance before e after hbefore hstep).1)
    (Nat.zero_le _) fun _ _ => trivial
  refine ⟨hcollect.1, hcollect.2, fun x hx => ?_⟩
  obtain ⟨hafter, h⟩ := hlaw _ _ _ (run.step_of_mem x hx)
  exact ⟨(hbounds x hx).1, hafter, h⟩

/-- A directory of two entries. -/
def twoEntries : List (Dentry CString FileType) :=
  [{ name := ⟨[97], List.forall_iff_forall_mem.1 (by decide)⟩, inode := .S_IFREG },
    { name := ⟨[98, 99], List.forall_iff_forall_mem.1 (by decide)⟩, inode := .S_IFDIR }]

/-- Reading that directory into a buffer of a size. -/
def readTwoEntries (offset count : Nat) : GetdentsEvent :=
  ⟨fun _ => 0, count, fileDescriptionGetdents (dentryGetdents twoEntries) offset (fun _ => 0) count⟩

/-- Buffers that hold one record, none, and all that are left. -/
def threeReads : List (Transition Nat GetdentsEvent) :=
  [⟨0, readTwoEntries 0 6, 1⟩, ⟨1, readTwoEntries 1 6, 1⟩, ⟨1, readTwoEntries 1 512, 2⟩]

theorem enumeration_complete_twoEntries :
    threeReads.flatMap (·.event.call.listed) = (twoEntries.take 2).map (·.name) :=
  (enumeration_complete twoEntries 0 threeReads 2 rfl
    (.cons ⟨rfl, rfl⟩ (.cons ⟨rfl, rfl⟩ (.cons ⟨rfl, rfl⟩ (.nil 2))))).2.1

/-! ### The test of `rmdir` -/

section Emptiness

variable {krealloc : Nat → Nat → Option (Nat → UInt8)} {children : List (Dentry CString FileType)}

/-- The buffer grows until the first record fits. -/
theorem exists_emptinessLoop (hkrealloc : ∀ k n, krealloc k n ≠ none) {dentry : Dentry CString FileType}
    (rest : List (Dentry CString FileType)) (allocs : Nat) {capacity : Nat} (hsize : direntSize dentry.name < 2 ^ 31)
    (hpos : 0 < capacity) :
    ∃ rounds n, emptinessLoop krealloc (dentry :: rest) rounds allocs capacity 0 = some (.ok n) ∧ 0 < n := by
  -- the capacity doubles, and it stays below the size of a word while the record does not fit
  induction hmeasure : 2 ^ 31 - capacity using Nat.strong_induction_on generalizing allocs capacity with
  | _ measure ih =>
      obtain ⟨buf, hbuf⟩ := Option.ne_none_iff_exists'.1 (hkrealloc allocs capacity)
      have hlaw := getdents_law (dentry :: rest) 0 buf capacity
      by_cases hlt : capacity < direntSize dentry.name
      · have hresult := hlaw.invalid.2 ⟨dentry, rest, rfl, hlt⟩
        have hoffset := (hlaw.failed _ hresult).2
        have hdouble : capacity * 2 % wordSize = capacity * 2 := Nat.mod_eq_of_lt (by simp only [wordSize]; omega)
        have hpos' : 0 < capacity * 2 := by omega
        obtain ⟨rounds, n, hloop, hn⟩ := ih (2 ^ 31 - capacity * 2) (by omega) (allocs + 1) hpos' rfl
        refine ⟨rounds + 1, n, ?_, hn⟩
        rw [emptinessLoop, hbuf]
        simp only [hresult, hoffset, hdouble]
        exact hloop
      · cases hresult : (fileDescriptionGetdents (dentryGetdents (dentry :: rest)) 0 buf capacity).result with
        | error e =>
            rw [(hlaw.failed e hresult).1] at hresult
            obtain ⟨_, _, hdrop, hgt⟩ := hlaw.invalid.1 hresult
            obtain ⟨rfl, -⟩ := List.cons.inj hdrop
            exact absurd hgt hlt
        | ok n =>
            refine ⟨1, n, ?_, Nat.pos_of_ne_zero ?_⟩
            · rw [emptinessLoop, hbuf]
              simp only [hresult]
            · rintro rfl
              exact absurd (hlaw.done.1 hresult) (by simp)

/-- When the kernel has memory, the test says that a directory is empty exactly when it has no entries. -/
theorem makeSureDirectoryIsEmpty_iff (hkrealloc : ∀ k n, krealloc k n ≠ none)
    (hshort : ∀ dentry ∈ children, direntSize dentry.name < 2 ^ 31) :
    ∃ rounds, makeSureDirectoryIsEmpty krealloc children rounds =
      some (if children = [] then .ok () else .error .ENOTEMPTY) := by
  cases children with
  | nil =>
      obtain ⟨buf, hbuf⟩ := Option.ne_none_iff_exists'.1 (hkrealloc 0 1024)
      have hdone := (getdents_law [] 0 buf 1024).done.2 (Nat.le_refl _)
      refine ⟨1, ?_⟩
      rw [makeSureDirectoryIsEmpty, emptinessLoop, hbuf]
      simp only [hdone]
      rfl
  | cons dentry rest =>
      obtain ⟨rounds, n, hloop, hn⟩ := exists_emptinessLoop hkrealloc rest 0 (hshort dentry List.mem_cons_self)
        (by decide : 0 < 1024)
      refine ⟨rounds, ?_⟩
      rw [makeSureDirectoryIsEmpty, hloop, if_neg (List.cons_ne_nil _ _)]
      simp [hn]

end Emptiness

end Chaotix
