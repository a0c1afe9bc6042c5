/-
Module: Chaotix.Proofs.DirectoryListing
Layer: Proofs
Purpose: What `readdir` lists of a directory. The kernel stores the length of a record in 16 bits, so the walk of
  `readdir` stays with the records as long as no record is longer. Behind a longer one it looks for the next record
  inside the name: what it returns next is a tail of that name.
Imports: Chaotix.Userland.Dirent
Trusted boundary: none
Main exports: tmpfsCall_spec, Reading, lists_of_short, short_or_tail_of_lists, ShortNames, readdir_lists_directory
-/
import Chaotix.Userland.Dirent

namespace Chaotix

/-- The number of values of `d_reclen`. -/
abbrev reclenLimit : Nat := 2 ^ 16

section Records

variable {mem : Nat → UInt8} {a : Nat} {entries : List (Dentry CString FileType)}

theorem direntsBytes_cons (dentry : Dentry CString FileType) (entries : List (Dentry CString FileType)) :
    direntsBytes (dentry :: entries) =
      direntBytes dentry.name (modeToDirentType dentry.inode) ++ direntsBytes entries := rfl

theorem direntSize_pos (name : CString) : 0 < direntSize name :=
  Nat.lt_of_lt_of_le (by decide : 0 < direntNameOffset) (Nat.le_add_right direntNameOffset name.size)

theorem length_direntsBytes_cons (dentry : Dentry CString FileType) (entries : List (Dentry CString FileType)) :
    (direntsBytes (dentry :: entries)).length = direntSize dentry.name + (direntsBytes entries).length := by
  rw [direntsBytes_cons, List.length_append, length_direntBytes]

/-- `d_reclen` holds the length as far as its width goes. -/
theorem reclenAt_of_bytesAt {name : CString} {type : UInt8} (h : BytesAt mem a (direntBytes name type)) :
    reclenAt mem a = direntSize name % reclenLimit := by
  have hpos : 2 ≤ (direntBytes name type).length := by
    rw [length_direntBytes]
    exact Nat.le_trans (by decide) (Nat.le_add_right direntNameOffset name.size)
  have hlow := h 0 (by omega)
  have hhigh := h 1 (by omega)
  simp only [direntBytes, List.cons_append, List.getElem_cons_zero, List.getElem_cons_succ, Nat.add_zero] at hlow hhigh
  rw [reclenAt, hlow, hhigh, UInt8.toNat_ofNat', UInt8.toNat_ofNat']
  simp only [reclenLimit]
  omega

/-- The name is behind the other fields. -/
theorem cStrAt_of_bytesAt {name : CString} {type : UInt8} (h : BytesAt mem a (direntBytes name type)) :
    CStrAt mem (a + direntNameOffset) name := by
  have hstr : strlcpyBytes name.chars name.size = name.chars ++ [0] := by
    rw [strlcpyBytes, CString.size, Nat.add_sub_cancel, List.take_length]
  rw [direntBytes, bytesAt_append, hstr] at h
  exact h.2

/-- A tail of a string is a string. -/
theorem CStrAt.drop {name : CString} (h : CStrAt mem a name) {r : Nat} (hr : r ≤ name.chars.length) (tail : CString)
    (htail : tail.chars = name.chars.drop r) : CStrAt mem (a + r) tail := by
  intro i hi
  rw [htail, List.length_append, List.length_drop] at hi
  have hbyte := h (r + i) (by rw [List.length_append]; omega)
  rw [← Nat.add_assoc] at hbyte
  rw [hbyte]
  simp only [htail, ← List.drop_append_of_le_length hr, List.getElem_drop]

/-- There is only one string at an address. -/
theorem CStrAt.unique {str str' : CString} (h : CStrAt mem a str) (h' : CStrAt mem a str') : str.chars = str'.chars := by
  have hle : ∀ {str str' : CString}, CStrAt mem a str → CStrAt mem a str' → str.chars.length ≤ str'.chars.length := by
    intro str str' h h'
    by_contra hlt
    have hlt := Nat.lt_of_not_le hlt
    -- the end of the shorter one is a character of the longer one
    have hend := h' str'.chars.length (by simp)
    have hchar := h str'.chars.length (by rw [List.length_append]; omega)
    rw [hend, List.getElem_append_left hlt] at hchar
    refine str.noNul _ (List.getElem_mem hlt) ?_
    rw [← hchar]
    simp
  have hlength := Nat.le_antisymm (hle h h') (hle h' h)
  refine List.ext_getElem hlength fun i hi hi' => ?_
  have hbyte := h i (by rw [List.length_append]; omega)
  have hbyte' := h' i (by rw [List.length_append]; omega)
  rw [List.getElem_append_left hi] at hbyte
  rw [List.getElem_append_left hi'] at hbyte'
  exact hbyte.symm.trans hbyte'

end Records

/-! ### One call of the kernel -/

section Calls

variable {children : List (Dentry CString FileType)}

/-- What `getdents` answers: zero at the end, `EINVAL` when the next record does not fit, and otherwise it stores the
    records of the next entries. -/
theorem tmpfsCall_spec (children : List (Dentry CString FileType)) (offset : Nat) (mem : Nat → UInt8) (count : Nat) :
    let call := fileDescriptionGetdents (tmpfsGetdents children) offset mem count
    (children.drop offset = [] ∧ call.result = .ok 0) ∨
      (∃ dentry rest, children.drop offset = dentry :: rest ∧ count < direntSize dentry.name ∧
        call.result = .error .EINVAL ∧ call.offset = offset) ∨
      ∃ dentry entries rest, children.drop offset = dentry :: entries ++ rest ∧ children.drop call.offset = rest ∧
        call.result = .ok (direntsBytes (dentry :: entries)).length ∧ direntSize dentry.name ≤ count ∧
        BytesAt call.mem 0 (direntsBytes (dentry :: entries)) := by
  obtain ⟨entries, rest, hsplit, hstored, hoffset, hle, hend⟩ :=
    dentryGetdentsLoop_spec (children.drop offset) { mem := mem, remainingCount := count } offset
  unfold fileDescriptionGetdents tmpfsGetdents dentryGetdents
  generalize dentryGetdentsLoop (children.drop offset) { mem := mem, remainingCount := count } offset = r
    at hstored hoffset hend ⊢
  obtain ⟨ctx, offset'⟩ := r
  simp only at hstored hoffset hend hle ⊢
  cases entries with
  | nil =>
      have hnwritten : ctx.nwritten = 0 := hstored.nwritten
      rcases hend with ⟨rfl, hsmall⟩ | ⟨dentry, rest', rfl, hlt, hsmall⟩
      · exact Or.inl ⟨hsplit, by simp [hnwritten, hsmall]⟩
      · refine Or.inr (Or.inl ⟨dentry, rest', hsplit, ?_, by simp [hnwritten, hsmall], hoffset⟩)
        exact Nat.lt_of_lt_of_eq hlt (Nat.zero_add _)
  | cons dentry entries =>
      have hnwritten : ctx.nwritten = (direntsBytes (dentry :: entries)).length :=
        hstored.nwritten.trans (Nat.zero_add _)
      have hlength := length_direntsBytes_cons dentry entries
      have hpos := direntSize_pos dentry.name
      refine Or.inr (Or.inr ⟨dentry, entries, rest, hsplit, ?_, ?_, ?_, hstored.bytes⟩)
      · rw [hoffset, ← List.drop_drop, hsplit, List.drop_left]
      · rw [if_neg (by omega), hnwritten]
      · omega

end Calls

/-! ### The walk of `readdir` -/

section Reading

variable {realloc : Nat → Nat → Option (Nat → UInt8)} {children entries : List (Dentry CString FileType)}
  {dirp dirp' : Dir}

/-- The buffer holds the records of the entries from the cursor to its end. -/
structure Reading (dirp : Dir) (entries : List (Dentry CString FileType)) : Prop where
  bytes : BytesAt dirp.buf dirp.bufCursor (direntsBytes entries)
  size : dirp.bufSize = dirp.bufCursor + (direntsBytes entries).length

theorem Reading.cursor_lt {dentry : Dentry CString FileType} (h : Reading dirp (dentry :: entries)) :
    dirp.bufCursor < dirp.bufSize := by
  have hpos := direntSize_pos dentry.name
  have hsize := h.size
  rw [length_direntsBytes_cons] at hsize
  omega

theorem reading_nil_iff : Reading dirp [] ↔ dirp.bufCursor = dirp.bufSize :=
  ⟨fun h => h.size.symm, fun h => ⟨fun i hi => absurd hi (Nat.not_lt_zero i), h.symm⟩⟩

/-- When the loop has a record, the buffer holds the next entries. -/
theorem readdirFill_some {rounds : Nat} (h : readdirFill realloc children rounds dirp = some (true, dirp')) :
    ∃ dentry entries, children.drop dirp.offset = dentry :: entries ++ children.drop dirp'.offset ∧
      Reading { dirp' with bufCursor := 0 } (dentry :: entries) := by
  induction rounds generalizing dirp with
  | zero => cases h
  | succ rounds ih =>
      rw [readdirFill] at h
      cases hmem : realloc dirp.reallocs dirp.bufCapacity with
      | none =>
          simp [hmem] at h
      | some newBuf =>
          rw [hmem] at h
          simp only at h
          rcases tmpfsCall_spec children dirp.offset newBuf dirp.bufCapacity with
            ⟨hdrop, hresult⟩ | ⟨dentry, rest, hdrop, hlt, hresult, hoffset⟩ |
            ⟨dentry, entries, rest, hdrop, hrest, hresult, hfits, hbytes⟩
          · rw [hresult] at h
            simp at h
          · rw [hresult] at h
            obtain ⟨dentry', entries, hdrop', hreading⟩ := ih h
            simp only [hoffset] at hdrop'
            exact ⟨dentry', entries, hdrop', hreading⟩
          · rw [hresult] at h
            have hpos : (direntsBytes (dentry :: entries)).length ≠ 0 := by
              rw [length_direntsBytes_cons]
              exact Nat.ne_of_gt (Nat.add_pos_left (direntSize_pos dentry.name) _)
            split at h
            · rename_i hzero
              exact absurd (Except.ok.inj hzero) hpos
            · rename_i nread _ hok
              obtain rfl := Except.ok.inj hok
              obtain rfl := (Prod.mk.inj (Option.some.inj h)).2
              exact ⟨dentry, entries, by rw [hdrop, hrest], hbytes, (Nat.zero_add _).symm⟩
            · rename_i hno
              cases hno
            · rename_i hno
              cases hno

/-- A record that `readdir` returns is the one of the next entry, and the cursor moves on by its `d_reclen`. -/
theorem readdir_some {rounds dent : Nat} (hreading : Reading dirp entries)
    (h : readdir realloc children rounds dirp = some (some dent, dirp')) :
    ∃ dentry entries', entries ++ children.drop dirp.offset = dentry :: entries' ++ children.drop dirp'.offset ∧
      BytesAt dirp'.buf dent (direntsBytes (dentry :: entries')) ∧
      dirp'.bufSize = dent + (direntsBytes (dentry :: entries')).length ∧
      dirp'.bufCursor = dent + direntSize dentry.name % reclenLimit := by
  rw [readdir] at h
  cases entries with
  | nil =>
      rw [if_pos (reading_nil_iff.1 hreading).ge] at h
      cases hfill : readdirFill realloc children rounds dirp with
      | none => simp [hfill] at h
      | some r =>
          obtain ⟨found, next⟩ := r
          rw [hfill] at h
          cases found with
          | false => simp at h
          | true =>
              simp only [Option.some.injEq, Prod.mk.injEq] at h
              obtain ⟨rfl, rfl⟩ := h
              obtain ⟨dentry, entries, hdrop, hnext⟩ := readdirFill_some hfill
              have hrecord := hnext.bytes
              rw [direntsBytes_cons, bytesAt_append] at hrecord
              refine ⟨dentry, entries, hdrop, hnext.bytes, hnext.size, ?_⟩
              rw [Nat.zero_add]
              exact reclenAt_of_bytesAt hrecord.1
  | cons dentry entries =>
      rw [if_neg (Nat.not_le_of_lt hreading.cursor_lt)] at h
      simp only [Option.some.injEq, Prod.mk.injEq] at h
      obtain ⟨rfl, rfl⟩ := h
      have hrecord := hreading.bytes
      rw [direntsBytes_cons, bytesAt_append] at hrecord
      refine ⟨dentry, entries, rfl, hreading.bytes, hreading.size, ?_⟩
      rw [reclenAt_of_bytesAt hrecord.1]

/-- A record that is not too long is left behind as a whole. -/
theorem Reading.next {dentry : Dentry CString FileType} {dent : Nat}
    (hbytes : BytesAt dirp.buf dent (direntsBytes (dentry :: entries)))
    (hsize : dirp.bufSize = dent + (direntsBytes (dentry :: entries)).length)
    (hcursor : dirp.bufCursor = dent + direntSize dentry.name % reclenLimit)
    (hshort : direntSize dentry.name < reclenLimit) : Reading dirp entries := by
  rw [Nat.mod_eq_of_lt hshort] at hcursor
  rw [direntsBytes_cons, bytesAt_append, length_direntBytes, ← hcursor] at hbytes
  rw [length_direntsBytes_cons, ← Nat.add_assoc, ← hcursor] at hsize
  exact ⟨hbytes.2, hsize⟩

/-! ### Directories without long names -/

/-- The record fits a buffer that has been doubled often enough, so the loop ends with a record. -/
theorem exists_readdirFill (hrealloc : ∀ k n, realloc k n ≠ none) {dentry : Dentry CString FileType}
    {rest : List (Dentry CString FileType)} (hdrop : children.drop dirp.offset = dentry :: rest)
    (hshort : direntSize dentry.name < reclenLimit) (hpos : 0 < dirp.bufCapacity)
    (hcapacity : dirp.bufCapacity < 2 * reclenLimit) :
    ∃ rounds dirp', readdirFill realloc children rounds dirp = some (true, dirp') ∧ 0 < dirp'.bufCapacity ∧
      dirp'.bufCapacity < 2 * reclenLimit := by
  -- by induction on how much is missing to the longest record
  induction hmissing : reclenLimit - dirp.bufCapacity using Nat.strong_induction_on generalizing dirp with
  | _ missing ih =>
      obtain ⟨newBuf, hmem⟩ := Option.ne_none_iff_exists'.1 (hrealloc dirp.reallocs dirp.bufCapacity)
      rcases tmpfsCall_spec children dirp.offset newBuf dirp.bufCapacity with
        ⟨hnil, _⟩ | ⟨dentry', rest', hdrop', hlt, hresult, hoffset⟩ | ⟨dentry', entries, rest', _, _, hresult, _, _⟩
      · rw [hdrop] at hnil
        cases hnil
      · rw [hdrop] at hdrop'
        obtain ⟨rfl, rfl⟩ := List.cons.inj hdrop'
        have hdouble : dirp.bufCapacity * 2 % wordSize = dirp.bufCapacity * 2 := by
          refine Nat.mod_eq_of_lt ?_
          simp only [reclenLimit, wordSize] at hshort hcapacity ⊢
          omega
        generalize hcall : fileDescriptionGetdents (tmpfsGetdents children) dirp.offset newBuf dirp.bufCapacity = call
          at hresult hoffset
        generalize hnext : ({ dirp with
          buf := call.mem
          offset := call.offset
          reallocs := dirp.reallocs + 1
          bufCapacity := dirp.bufCapacity * 2 % wordSize } : Dir) = next
        have hdropNext : children.drop next.offset = dentry :: rest := by
          rw [← hnext, hoffset]
          exact hdrop
        have hcapacityNext : next.bufCapacity = dirp.bufCapacity * 2 := by
          rw [← hnext]
          exact hdouble
        obtain ⟨rounds, dirp', hfill, hrest⟩ := ih (reclenLimit - next.bufCapacity) (by omega) hdropNext (by omega)
          (by omega) rfl
        rw [← hnext] at hfill
        refine ⟨rounds + 1, dirp', ?_, hrest⟩
        rw [readdirFill, hmem]
        simp only [hcall, hresult]
        exact hfill
      · have hne : (direntsBytes (dentry' :: entries)).length ≠ 0 := by
          rw [length_direntsBytes_cons]
          exact Nat.ne_of_gt (Nat.add_pos_left (direntSize_pos dentry'.name) _)
        obtain ⟨n, hn⟩ := Nat.exists_eq_succ_of_ne_zero hne
        have hfill : readdirFill realloc children 1 dirp = some (true, { dirp with
            buf := (fileDescriptionGetdents (tmpfsGetdents children) dirp.offset newBuf dirp.bufCapacity).mem
            offset := (fileDescriptionGetdents (tmpfsGetdents children) dirp.offset newBuf dirp.bufCapacity).offset
            reallocs := dirp.reallocs + 1
            bufSize := n.succ }) := by
          rw [readdirFill, hmem]
          simp only [hresult, hn]
        exact ⟨1, _, hfill, hpos, hcapacity⟩

theorem lists_of_short (hrealloc : ∀ k n, realloc k n ≠ none) {entries : List (Dentry CString FileType)}
    {names : List CString} (hreading : Reading dirp entries)
    (hnames : (entries ++ children.drop dirp.offset).map (·.name) = names)
    (hshort : ∀ dentry ∈ children, direntSize dentry.name < reclenLimit)
    (hentries : ∀ dentry ∈ entries, direntSize dentry.name < reclenLimit) (hpos : 0 < dirp.bufCapacity)
    (hcapacity : dirp.bufCapacity < 2 * reclenLimit) : Lists realloc children dirp names := by
  induction names generalizing dirp entries with
  | nil =>
      obtain ⟨rfl, hdrop⟩ := List.append_eq_nil_iff.1 (List.map_eq_nil_iff.1 hnames)
      -- the kernel has nothing more
      obtain ⟨newBuf, hmem⟩ := Option.ne_none_iff_exists'.1 (hrealloc dirp.reallocs dirp.bufCapacity)
      have hend : (fileDescriptionGetdents (tmpfsGetdents children) dirp.offset newBuf dirp.bufCapacity).result =
          .ok 0 := by
        rcases tmpfsCall_spec children dirp.offset newBuf dirp.bufCapacity with
          ⟨_, hresult⟩ | ⟨_, _, hdrop', _⟩ | ⟨_, _, _, hdrop', _⟩
        · exact hresult
        · rw [hdrop] at hdrop'
          cases hdrop'
        · rw [hdrop] at hdrop'
          cases hdrop'
      have hnull : ∃ dirp', readdirFill realloc children 1 dirp = some (false, dirp') := by
        rw [readdirFill, hmem]
        simp only [hend]
        exact ⟨_, rfl⟩
      obtain ⟨dirp', hnull⟩ := hnull
      refine ⟨1, dirp', ?_⟩
      rw [readdir, if_pos (reading_nil_iff.1 hreading).ge, hnull]
  | cons name names ih =>
      obtain ⟨rounds, dent, dirp', hreaddir, hpos', hcapacity'⟩ : ∃ rounds dent dirp',
          readdir realloc children rounds dirp = some (some dent, dirp') ∧ 0 < dirp'.bufCapacity ∧
            dirp'.bufCapacity < 2 * reclenLimit := by
        cases entries with
        | nil =>
            obtain ⟨dentry, rest, hdrop, -⟩ := List.map_eq_cons_iff.1 hnames
            rw [List.nil_append] at hdrop
            have hmem : dentry ∈ children := List.mem_of_mem_drop (hdrop ▸ List.mem_cons_self)
            obtain ⟨rounds, dirp', hfill, hpos', hcapacity'⟩ :=
              exists_readdirFill hrealloc hdrop (hshort dentry hmem) hpos hcapacity
            refine ⟨rounds, 0, { dirp' with bufCursor := reclenAt dirp'.buf 0 }, ?_, hpos', hcapacity'⟩
            rw [readdir, if_pos (reading_nil_iff.1 hreading).ge, hfill]
        | cons dentry entries =>
            refine ⟨0, dirp.bufCursor,
              { dirp with bufCursor := dirp.bufCursor + reclenAt dirp.buf dirp.bufCursor }, ?_, hpos, hcapacity⟩
            rw [readdir, if_neg (Nat.not_le_of_lt hreading.cursor_lt)]
      obtain ⟨dentry, entries', hsplit, hbytes, hsize, hcursor⟩ := readdir_some hreading hreaddir
      rw [hsplit, List.cons_append, List.map_cons] at hnames
      obtain ⟨rfl, hrest⟩ := List.cons.inj hnames
      have hall : ∀ e ∈ dentry :: entries' ++ children.drop dirp'.offset, direntSize e.name < reclenLimit := by
        intro e he
        rw [← hsplit] at he
        rcases List.mem_append.1 he with he | he
        · exact hentries e he
        · exact hshort e (List.mem_of_mem_drop he)
      have hrecord := hbytes
      rw [direntsBytes_cons, bytesAt_append] at hrecord
      refine ⟨rounds, dent, dirp', hreaddir, cStrAt_of_bytesAt hrecord.1, ?_⟩
      exact ih (Reading.next hbytes hsize hcursor (hall dentry List.mem_cons_self)) hrest
        (fun e he => hall e (List.mem_cons_of_mem _ (List.mem_append_left _ he))) hpos' hcapacity'

/-! ### A long name -/

/-- If the listing is right nevertheless, the entry behind the first long name is a tail of that name. -/
theorem short_or_tail_of_lists {entries : List (Dentry CString FileType)} {names : List CString}
    (hreading : Reading dirp entries) (hnames : (entries ++ children.drop dirp.offset).map (·.name) = names)
    (hlists : Lists realloc children dirp names) :
    (∀ dentry ∈ entries ++ children.drop dirp.offset, direntSize dentry.name < reclenLimit) ∨
      ∃ before long next after, entries ++ children.drop dirp.offset = before ++ long :: next :: after ∧
        reclenLimit ≤ direntSize long.name ∧
        next.name.chars = long.name.chars.drop (direntSize long.name % reclenLimit) := by
  induction names generalizing dirp entries with
  | nil =>
      rw [List.map_eq_nil_iff.1 hnames]
      exact Or.inl (by simp)
  | cons name names ih =>
      obtain ⟨rounds, dent, dirp', hreaddir, _, hrest⟩ := hlists
      obtain ⟨dentry, entries', hsplit, hbytes, hsize, hcursor⟩ := readdir_some hreading hreaddir
      rw [hsplit, List.cons_append, List.map_cons] at hnames
      obtain ⟨-, hnames⟩ := List.cons.inj hnames
      rw [hsplit]
      rcases Nat.lt_or_ge (direntSize dentry.name) reclenLimit with hshort | hlong
      · rcases ih (Reading.next hbytes hsize hcursor hshort) hnames hrest with
          hall | ⟨before, long, next, after, hwhere, hlong, htail⟩
        · refine Or.inl fun e he => ?_
          rcases List.mem_cons.1 he with rfl | he
          · exact hshort
          · exact hall e he
        · refine Or.inr ⟨dentry :: before, long, next, after, ?_, hlong, htail⟩
          rw [List.cons_append, hwhere, List.cons_append]
      · -- the cursor is still inside the record, and the next record is looked for there
        have hmod : direntSize dentry.name % reclenLimit ≤ direntSize dentry.name - reclenLimit := by
          have hsub := Nat.mod_eq_sub_mod hlong
          rw [hsub]
          exact Nat.mod_le _ _
        have hinside : ¬dirp'.bufCursor ≥ dirp'.bufSize := by
          rw [hcursor, hsize, length_direntsBytes_cons]
          have hlimit : 0 < reclenLimit := by decide
          omega
        cases names with
        | nil =>
            obtain ⟨rounds', dirp'', hnull⟩ := hrest
            rw [readdir, if_neg hinside] at hnull
            simp at hnull
        | cons name' names =>
            obtain ⟨rounds', dent', dirp'', hreaddir', hstring, _⟩ := hrest
            rw [readdir, if_neg hinside] at hreaddir'
            simp only [Option.some.injEq, Prod.mk.injEq] at hreaddir'
            obtain ⟨rfl, rfl⟩ := hreaddir'
            obtain ⟨next, after, hwhere, hname, -⟩ := List.map_eq_cons_iff.1 hnames
            rw [direntsBytes_cons, bytesAt_append] at hbytes
            have hwhole : CStrAt dirp'.buf (dent + direntNameOffset) dentry.name := cStrAt_of_bytesAt hbytes.1
            have hr : direntSize dentry.name % reclenLimit ≤ dentry.name.chars.length := by
              have hdef : direntSize dentry.name = dentry.name.chars.length + 5 := by
                simp only [direntSize, direntNameOffset, CString.size]
                omega
              simp only [reclenLimit] at hmod hlong ⊢
              omega
            have htail := hwhole.drop hr
              ⟨dentry.name.chars.drop (direntSize dentry.name % reclenLimit),
                fun c hc => dentry.name.noNul c (List.mem_of_mem_drop hc)⟩ rfl
            simp only at hstring
            rw [hcursor, Nat.add_right_comm] at hstring
            refine Or.inr ⟨[], dentry, next, after, ?_, hlong, ?_⟩
            · rw [List.cons_append, hwhere, List.nil_append]
            · rw [hname]
              exact hstring.unique htail

end Reading

/-- Every record fits `d_reclen`: no name has more than 65530 characters. -/
def ShortNames (children : List (Dentry CString FileType)) : Prop :=
  ∀ dentry ∈ children, dentry.name.chars.length ≤ 65530

theorem direntSize_lt_iff {name : CString} : direntSize name < reclenLimit ↔ name.chars.length ≤ 65530 := by
  simp only [direntSize, direntNameOffset, CString.size, reclenLimit]
  omega

theorem reading_opendir (mem : Nat → UInt8) : Reading (opendir mem) [] := reading_nil_iff.2 rfl

/-- `readdir` lists a directory of short names, whatever memory `realloc` returns; and if it lists a directory with a
    long name, the entry behind the first such name is a tail of that name. -/
theorem readdir_lists_directory (realloc : Nat → Nat → Option (Nat → UInt8))
    (children : List (Dentry CString FileType)) (mem : Nat → UInt8) :
    ((∀ k n, realloc k n ≠ none) → ShortNames children →
      Lists realloc children (opendir mem) (children.map (·.name))) ∧
    (Lists realloc children (opendir mem) (children.map (·.name)) → ShortNames children ∨
      ∃ before long next after, children = before ++ long :: next :: after ∧ 65530 < long.name.chars.length ∧
        next.name.chars = long.name.chars.drop (direntSize long.name % reclenLimit)) := by
  constructor
  · intro hrealloc hshort
    exact lists_of_short hrealloc (reading_opendir mem) rfl (fun e he => direntSize_lt_iff.2 (hshort e he)) (by simp)
      (by decide : 0 < 1024) (by decide : 1024 < 2 * reclenLimit)
  · intro hlists
    rcases short_or_tail_of_lists (reading_opendir mem) rfl hlists with
      hall | ⟨before, long, next, after, hwhere, hlong, htail⟩
    · exact Or.inl fun e he => direntSize_lt_iff.1 (hall e he)
    · refine Or.inr ⟨before, long, next, after, hwhere, ?_, htail⟩
      exact Nat.lt_of_not_le fun hle => Nat.not_le_of_lt (direntSize_lt_iff.2 hle) hlong

/-- A name of 65531 times the letter `a`. -/
def longName : CString where
  chars := List.replicate 65531 97
  noNul := fun c hc => by
    rw [List.eq_of_mem_replicate hc]
    decide

/-- A directory with that name alone is not listed. -/
theorem readdir_misses_end_behind_long_name :
    ¬∀ (realloc : Nat → Nat → Option (Nat → UInt8)) (children : List (Dentry CString FileType)) (mem : Nat → UInt8),
      (∀ k n, realloc k n ≠ none) → (children.map (·.name.chars)).Nodup →
        Lists realloc children (opendir mem) (children.map (·.name)) := by
  intro hall
  have hlists := hall (fun _ _ => some fun _ => 0) [{ name := longName, inode := .S_IFREG }] (fun _ => 0) (by simp)
    (by simp)
  have hlength : longName.chars.length = 65531 := List.length_replicate
  rcases short_or_tail_of_lists (reading_opendir _) rfl hlists with
    hshort | ⟨before, long, next, after, hwhere, _⟩
  · have hle := direntSize_lt_iff.1 (hshort _ List.mem_cons_self)
    rw [hlength] at hle
    exact absurd hle (by decide)
  · have hcount := congrArg List.length hwhere
    simp [opendir] at hcount
    omega

end Chaotix
