/-
Module: Chaotix.Proofs.RangeSpec
Layer: Proofs
Purpose: What the functions of the range allocator do to its free list. `RangeOk s free` says that the
  memory of `s` holds the list `free`; each function is described by the list it leaves behind. The two
  functions that move the node of a range share one lemma, and so do all the ways to change a link.
Imports: Mathlib.Tactic, Chaotix.Lib.NodeList, Chaotix.Kernel.RangeAllocator,
  Chaotix.Proofs.PagingSpec
Trusted boundary: none
Main exports: Vm.header, NodeOk, RangeOk, rangeAllocatorAlloc_spec, rangeAllocatorFree_spec
-/
import Mathlib.Tactic
import Chaotix.Lib.NodeList
import Chaotix.Kernel.RangeAllocator
import Chaotix.Proofs.PagingSpec

namespace Chaotix

/-! ### The nodes in memory -/

/-- `*(struct range*)a`, its size and its link, when the page of `a` is mapped. -/
def Vm.header (vm : Vm) (a : Nat) : Option (Nat × Nat) :=
  (vm.frameOf (a / PAGE_SIZE)).map fun frame => (vm.word frame 0, vm.word frame 4)

variable {vm vm' : Vm} {a frame : Nat}

theorem header_of_mapped (h : vm.frameOf (a / PAGE_SIZE) = some frame) :
    vm.header a = some (vm.word frame 0, vm.word frame 4) := by
  simp [Vm.header, h]

/-- A node depends on the mapping of its page and on the frame behind it. -/
theorem header_congr (hframe : vm'.frameOf (a / PAGE_SIZE) = vm.frameOf (a / PAGE_SIZE))
    (hram : ∀ f, vm.frameOf (a / PAGE_SIZE) = some f → vm'.ram f = vm.ram f) :
    vm'.header a = vm.header a := by
  rw [Vm.header, Vm.header, hframe]
  cases hpage : vm.frameOf (a / PAGE_SIZE) with
  | none => rfl
  | some f => simp [Vm.word, hram f hpage]

/-- An address of a page. -/
structure PageAddr (a : Nat) : Prop where
  base : a % PAGE_SIZE = 0
  lt : a < wordSize

theorem PageAddr.next (ha : PageAddr a) :
    nextField a = a + 4 ∧ (a + 4) / PAGE_SIZE = a / PAGE_SIZE ∧ (a + 4) % PAGE_SIZE = 4 := by
  have hbase := ha.base
  have hlt := ha.lt
  simp only [nextField, wordSize, PAGE_SIZE] at hbase hlt ⊢
  omega

section Accesses

variable (ha : PageAddr a) (h : vm.frameOf (a / PAGE_SIZE) = some frame)

include ha h

theorem load32_size : load32 a vm = .ok (vm.word frame 0, vm) := by
  rw [load32_eq h (by rw [ha.base]; decide) ha.lt, ha.base]

theorem load32_next : load32 (nextField a) vm = .ok (vm.word frame 4, vm) := by
  obtain ⟨hnext, hpage, hoff⟩ := ha.next
  have hlt := ha.lt
  have hbase := ha.base
  rw [hnext, load32_eq (hpage.symm ▸ h) (by rw [hoff]; decide), hoff]
  simp only [wordSize, PAGE_SIZE] at hlt hbase ⊢
  omega

theorem store32_size (value : Nat) : store32 a value vm = .ok ((), vm.putWord frame 0 value) := by
  rw [store32_eq h (by rw [ha.base]; decide) ha.lt, ha.base]

theorem store32_next (value : Nat) :
    store32 (nextField a) value vm = .ok ((), vm.putWord frame 4 value) := by
  obtain ⟨hnext, hpage, hoff⟩ := ha.next
  have hlt := ha.lt
  have hbase := ha.base
  rw [hnext, store32_eq (hpage.symm ▸ h) (by rw [hoff]; decide), hoff]
  simp only [wordSize, PAGE_SIZE] at hlt hbase ⊢
  omega

end Accesses

theorem putWord_ram_of_ne {f : Nat} (h : f ≠ frame) (off value : Nat) :
    (vm.putWord frame off value).ram f = vm.ram f := by
  simp [Vm.putWord, Function.update_of_ne h]

/-! ### Moving a node -/

/-- The address space after the node at `fromAddr` has been moved to `toAddr` and given a new size. -/
structure Moved (vm vm' : Vm) (frame toAddr fromAddr size : Nat) : Prop where
  frameOf : vm'.frameOf = Function.update (Function.update vm.frameOf (toAddr / PAGE_SIZE) (some frame))
    (fromAddr / PAGE_SIZE) none
  size : vm'.word frame 0 = size
  next : vm'.word frame 4 = vm.word frame 4
  ram : ∀ f, f ≠ frame → vm'.ram f = vm.ram f
  pages : PagesOk vm'.pages
  held : ∀ f, vm.pages.Held f 1 → vm'.pages.Held f 1

/-- A node is moved by mapping its frame at the new address, or memory is exhausted. -/
theorem moveNode_cases {toAddr fromAddr : Nat} (ok : PagesOk vm.pages) (hto : PageAddr toAddr)
    (hfrom : PageAddr fromAddr) (hmapped : vm.frameOf (fromAddr / PAGE_SIZE) = some frame)
    (hheld : vm.pages.Held frame 1) (hfree : vm.frameOf (toAddr / PAGE_SIZE) = none) :
    pagingCopyMapping toAddr fromAddr sizeofRange PAGE_WRITE vm = .ok (.error .ENOMEM, vm) ∨
    ∃ vm1, pagingCopyMapping toAddr fromAddr sizeofRange PAGE_WRITE vm = .ok (.ok (), vm1) ∧
      load32 toAddr vm1 = .ok (vm.word frame 0, vm1) ∧
      ∀ size, size < wordSize → ∃ vm2 vm3, store32 toAddr size vm1 = .ok ((), vm2) ∧
        pagingUnmap fromAddr sizeofRange vm2 = .ok ((), vm3) ∧
        Moved vm vm3 frame toAddr fromAddr size := by
  rw [pagingCopyMapping_small hto.base hfrom.base hto.lt hfrom.lt (by decide) (by decide)]
  rcases copyPageMapping_cases ok hmapped hheld hfree PAGE_WRITE with hnone |
    ⟨vm1, hsome, hframeOf, hram, hok, htwo, hothers⟩
  · exact Or.inl hnone
  · have hnew : vm1.frameOf (toAddr / PAGE_SIZE) = some frame := by
      rw [hframeOf, Function.update_self]
    have hload := load32_size hto hnew
    have hword : ∀ off, vm1.word frame off = vm.word frame off := fun off => by
      simp [Vm.word, hram]
    rw [hword] at hload
    refine Or.inr ⟨vm1, hsome, hload, ?_⟩
    intro size hsize
    have hstore := store32_size hto hnew size
    have hne : fromAddr / PAGE_SIZE ≠ toAddr / PAGE_SIZE := by
      intro heq
      rw [heq, hfree] at hmapped
      simp at hmapped
    have hold : (vm1.putWord frame 0 size).frameOf (fromAddr / PAGE_SIZE) = some frame := by
      rw [Vm.putWord_frameOf, hframeOf, Function.update_of_ne hne, hmapped]
    obtain ⟨vm3, hunmap, hframeOf3, hram3, hok3, hsame, hothers3⟩ :=
      unmapPage_cases (vm1.putWord frame 0 size) hok hold (htwo.mono (by decide))
    refine ⟨_, vm3, hstore, ?_, ?_⟩
    · rw [pagingUnmap_small sizeofRange hfrom.base hfrom.lt (by decide) (by decide), hunmap]
    · refine ⟨?_, ?_, ?_, ?_, hok3, ?_⟩
      · rw [hframeOf3, ← hframeOf]
        rfl
      · rw [Vm.word, hram3]
        exact Vm.word_putWord vm1 _ _ hsize
      · have hkeep := vm1.word_putWord_of_same frame 0 4 size (Or.inr (by decide))
        rw [← hword, ← hkeep, Vm.word, hram3]
        rfl
      · intro f hf
        rw [hram3, putWord_ram_of_ne hf, hram]
      · intro f hf
        by_cases heq : f = frame
        · subst heq
          exact hsame 1 (by decide) htwo
        · exact hothers3 f 1 heq (hothers f 1 hf)

/-! ### The free list -/

/-- A free range in memory: its first page is mapped, and no other page of it is. -/
structure NodeOk (vm : Vm) (r : Segment) : Prop where
  base : r.1 % PAGE_SIZE = 0
  size : r.2 % PAGE_SIZE = 0
  pos : 0 < r.2
  lt : r.1 + r.2 < wordSize
  mapped : ∃ f, vm.frameOf (r.1 / PAGE_SIZE) = some f ∧ vm.pages.Held f 1
  rest : ∀ page, r.1 < page * PAGE_SIZE → page * PAGE_SIZE < r.1 + r.2 → vm.frameOf page = none

theorem NodeOk.pageAddr {r : Segment} (h : NodeOk vm r) : PageAddr r.1 :=
  ⟨h.base, by have := h.lt; omega⟩

/-- A change of the address space does not touch the pages of a free range, nor lose the reference to
    the frame of its node. -/
structure KeepsNode (vm vm' : Vm) (r : Segment) : Prop where
  frameOf : ∀ page, r.1 ≤ page * PAGE_SIZE → page * PAGE_SIZE < r.1 + r.2 →
    vm'.frameOf page = vm.frameOf page
  held : ∀ f, vm.frameOf (r.1 / PAGE_SIZE) = some f → vm.pages.Held f 1 → vm'.pages.Held f 1

namespace NodeOk

variable {r : Segment}

theorem page_mul (h : NodeOk vm r) : r.1 / PAGE_SIZE * PAGE_SIZE = r.1 :=
  Nat.div_mul_cancel (Nat.dvd_of_mod_eq_zero h.base)

theorem keeps_frameOf (h : NodeOk vm r) (keeps : KeepsNode vm vm' r) :
    vm'.frameOf (r.1 / PAGE_SIZE) = vm.frameOf (r.1 / PAGE_SIZE) := by
  have hpos := h.pos
  apply keeps.frameOf
  · rw [h.page_mul]
  · rw [h.page_mul]
    omega

theorem congr (h : NodeOk vm r) (keeps : KeepsNode vm vm' r) : NodeOk vm' r := by
  obtain ⟨f, hmapped, hheld⟩ := h.mapped
  refine ⟨h.base, h.size, h.pos, h.lt, ⟨f, ?_, keeps.held f hmapped hheld⟩, ?_⟩
  · rw [h.keeps_frameOf keeps, hmapped]
  · intro page hlo hhi
    rw [keeps.frameOf page (Nat.le_of_lt hlo) hhi]
    exact h.rest page hlo hhi

end NodeOk

variable {P : Type}

/-- The frame that holds the node of a free range. -/
def Vm.nodeFrame (vm : Vm) (r : Segment) : Option Nat := vm.frameOf (r.1 / PAGE_SIZE)

/-- The memory of `s` holds the free list `free`: spaced ranges, each with a node in a frame of its
    own. -/
structure RangeOk (s : RangeState P) (free : List Segment) : Prop where
  list : NodeSeg s.vm.header s.allocator.ranges free 0
  nodes : ∀ r ∈ free, NodeOk s.vm r
  spaced : Spaced free
  frames : (free.map s.vm.nodeFrame).Nodup
  pages : PagesOk s.vm.pages

namespace RangeOk

variable {s s' : RangeState P} {free free' pre old new post : List Segment}

/-- The list with some of its ranges replaced, when the others are kept. -/
theorem replace (h : RangeOk s free) (hfree : free = pre ++ old ++ post)
    (hfree' : free' = pre ++ new ++ post)
    (hlist : NodeSeg s'.vm.header s'.allocator.ranges free' 0)
    (hspaced : Spaced free') (hkeeps : ∀ r ∈ pre ++ post, KeepsNode s.vm s'.vm r)
    (hnodes : ∀ r ∈ new, NodeOk s'.vm r) (hnodup : (new.map s'.vm.nodeFrame).Nodup)
    (hframes : ∀ r ∈ new, ∀ q ∈ pre ++ post, s'.vm.nodeFrame r ≠ s.vm.nodeFrame q)
    (hpages : PagesOk s'.vm.pages) : RangeOk s' free' := by
  subst hfree hfree'
  have hold : ∀ r ∈ pre ++ post, NodeOk s.vm r := by
    intro r hr
    apply h.nodes
    simp only [List.mem_append] at hr ⊢
    tauto
  have hkept : ∀ r ∈ pre ++ post, s'.vm.nodeFrame r = s.vm.nodeFrame r := fun r hr =>
    (hold r hr).keeps_frameOf (hkeeps r hr)
  have hperm : (pre ++ new ++ post).Perm (new ++ (pre ++ post)) := by
    rw [List.append_assoc]
    exact List.perm_append_comm_assoc _ _ _
  refine ⟨hlist, ?_, hspaced, ?_, hpages⟩
  · intro r hr
    rcases List.mem_append.1 (hperm.mem_iff.1 hr) with hr | hr
    · exact hnodes r hr
    · exact (hold r hr).congr (hkeeps r hr)
  · rw [(hperm.map _).nodup_iff, List.map_append, List.nodup_append]
    refine ⟨hnodup, ?_, ?_⟩
    · rw [List.map_congr_left hkept]
      refine List.Nodup.sublist ?_ h.frames
      apply List.Sublist.map
      rw [List.append_assoc]
      exact (List.sublist_append_right old post).append_left pre
    · intro f hf g hg heq
      obtain ⟨r, hr, rfl⟩ := List.mem_map.1 hf
      obtain ⟨q, hq, rfl⟩ := List.mem_map.1 hg
      exact hframes r hr q hq (heq.trans (hkept q hq))

/-- No two nodes share a frame. -/
theorem frame_ne {r q : Segment} (h : RangeOk s (pre ++ r :: post)) (hq : q ∈ pre ++ post) :
    s.vm.nodeFrame r ≠ s.vm.nodeFrame q := by
  have hnodup := (List.perm_middle.map s.vm.nodeFrame).nodup_iff.1 h.frames
  rw [List.map_cons, List.nodup_cons] at hnodup
  intro heq
  exact hnodup.1 (heq ▸ List.mem_map_of_mem hq)

/-- The memory holds one list only. -/
theorem unique (h : RangeOk s free) (h' : RangeOk s free') : free = free' :=
  h.list.unique h'.list

theorem length_lt (h : RangeOk s free) : free.length < wordSize := by
  have hlt : ∀ r ∈ free, r.1 < wordSize - 1 := by
    intro r hr
    have := (h.nodes r hr).lt
    have := (h.nodes r hr).pos
    omega
  have hlen := h.spaced.length_le 0 (fun _ _ => Nat.zero_le _) hlt (Nat.zero_le _)
  simp only [wordSize] at hlen ⊢
  omega

/-- The lock is no part of the list. -/
theorem setLock (h : RangeOk s free) (m : Mutex P) :
    RangeOk { s with allocator := { s.allocator with lock := m } } free :=
  ⟨h.list, h.nodes, h.spaced, h.frames, h.pages⟩

end RangeOk

/-! ### Changing a link -/

/-- The state after the list before a node has been made to lead to `target`. -/
structure Linked (s s' : RangeState P) (pre : List Segment) (target : Nat) : Prop where
  list : NodeSeg s'.vm.header s'.allocator.ranges pre target
  frameOf : s'.vm.frameOf = s.vm.frameOf
  pages : s'.vm.pages = s.vm.pages
  ram : ∀ f, (∀ r ∈ pre, s.vm.nodeFrame r ≠ some f) → s'.vm.ram f = s.vm.ram f
  allocator : s'.allocator = { s.allocator with ranges := s'.allocator.ranges }

/-- `setLink` redirects the list before `it`. -/
theorem setLink_eq {s : RangeState P} {pre : List Segment} {it : Nat} (target : Nat)
    (hlist : NodeSeg s.vm.header s.allocator.ranges pre it) (hnodes : ∀ r ∈ pre, NodeOk s.vm r)
    (hframes : (pre.map s.vm.nodeFrame).Nodup) (htarget : target < wordSize) :
    ∃ s', setLink (NodeSeg.last pre) target s = .ok ((), s') ∧ Linked s s' pre target := by
  rcases List.eq_nil_or_concat pre with rfl | ⟨pre, r, rfl⟩
  · refine ⟨{ s with allocator := { s.allocator with ranges := target } }, ?_, ?_⟩
    · simp [setLink, modifyAllocator]
    · exact ⟨rfl, rfl, rfl, fun _ _ => rfl, rfl⟩
  · rw [List.concat_eq_append] at hlist hnodes hframes ⊢
    have hr : r ∈ pre ++ [r] := by simp
    have node := hnodes r hr
    obtain ⟨f, hmapped, _⟩ := node.mapped
    obtain ⟨hne, next, hnext⟩ := hlist.exists_node hr
    have hstore := store32_next node.pageAddr hmapped target
    have hother : ∀ q ∈ pre, s.vm.nodeFrame q ≠ some f := by
      intro q hq heq
      rw [List.map_append, List.nodup_append] at hframes
      have hmem : s.vm.nodeFrame r ∈ [r].map s.vm.nodeFrame := by simp
      exact hframes.2.2 _ (List.mem_map_of_mem hq) _ hmem (heq.trans hmapped.symm)
    refine ⟨{ s with vm := s.vm.putWord f 4 target }, ?_, ?_⟩
    · simp [setLink, hne, onVm, Program.focus, hstore]
    · refine ⟨?_, rfl, rfl, ?_, rfl⟩
      · apply hlist.redirect
        · intro q hq
          apply header_congr (congrFun (Vm.putWord_frameOf s.vm f 4 target) _)
          intro g hg
          apply putWord_ram_of_ne
          rintro rfl
          exact hother q hq hg
        · have hheader := header_of_mapped hmapped
          rw [hheader] at hnext
          have hsize := s.vm.word_putWord_of_same f 4 0 target (Or.inl (by decide))
          simp only [Option.some.injEq, Prod.mk.injEq] at hnext
          have hmapped' : (s.vm.putWord f 4 target).frameOf (r.1 / PAGE_SIZE) = some f := hmapped
          rw [header_of_mapped hmapped', hsize, hnext.1, Vm.word_putWord _ _ _ htarget]
      · intro g hg
        apply putWord_ram_of_ne
        rintro rfl
        exact hg r hr hmapped

/-- So does `linkRange`, whose `ASSERT` holds. -/
theorem linkRange_eq {s : RangeState P} {pre : List Segment} {it : Nat} (target : Nat)
    (hlist : NodeSeg s.vm.header s.allocator.ranges pre it) (hnodes : ∀ r ∈ pre, NodeOk s.vm r)
    (hframes : (pre.map s.vm.nodeFrame).Nodup) (htarget : target < wordSize) :
    ∃ s', linkRange (NodeSeg.last pre) it target s = .ok ((), s') ∧ Linked s s' pre target := by
  obtain ⟨s', hset, hlinked⟩ := setLink_eq target hlist hnodes hframes htarget
  refine ⟨s', ?_, hlinked⟩
  have hassert : NodeSeg.last pre ≠ 0 ∨ s.allocator.ranges = it := by
    rcases List.eq_nil_or_concat pre with rfl | ⟨pre, r, rfl⟩
    · exact Or.inr hlist
    · left
      rw [List.concat_eq_append, NodeSeg.last_concat]
      exact (hlist.exists_node (by simp)).1
  simp [linkRange, assert, hassert, hset]

/-- Where the list before a node leads after it has been linked, the rest can follow. -/
theorem Linked.append {s s' : RangeState P} {pre post : List Segment} {target : Nat}
    (h : Linked s s' pre target) (hpost : NodeSeg s.vm.header target post 0)
    (hframes : ∀ r ∈ post, ∀ q ∈ pre, s.vm.nodeFrame r ≠ s.vm.nodeFrame q) :
    NodeSeg s'.vm.header s'.allocator.ranges (pre ++ post) 0 := by
  refine NodeSeg.append_iff.2 ⟨target, h.list, hpost.congr ?_⟩
  intro r hr
  apply header_congr
  · rw [h.frameOf]
  · intro f hf
    apply h.ram
    intro q hq heq
    exact hframes r hr q hq (hf.trans heq.symm)

/-! ### The two searches -/

theorem findFit_eq (size n : Nat) (pre : List Segment) {xs : List Segment} {it : Nat}
    (hlist : NodeSeg vm.header it xs 0) (hnodes : ∀ r ∈ xs, NodeOk vm r) (hn : xs.length < n) :
    ∃ ys zs it', findFit size n (NodeSeg.last pre) it vm = .ok ((NodeSeg.last (pre ++ ys), it'), vm) ∧
      xs = ys ++ zs ∧ NodeSeg vm.header it' zs 0 ∧ (∀ r ∈ ys, r.2 < size) ∧
      ∀ r ∈ zs.head?, size ≤ r.2 := by
  induction xs generalizing pre it n with
  | nil =>
      obtain rfl : it = 0 := hlist
      obtain ⟨n, rfl⟩ := Nat.exists_eq_add_one_of_ne_zero (Nat.ne_of_gt hn)
      exact ⟨[], [], 0, by simp [findFit], rfl, rfl, by simp, by simp⟩
  | cons x xs ih =>
      obtain ⟨n, rfl⟩ := Nat.exists_eq_add_one_of_ne_zero (Nat.ne_zero_of_lt hn)
      obtain ⟨rfl, hne, next, hnode, hrest⟩ := hlist
      have node := hnodes x List.mem_cons_self
      obtain ⟨f, hmapped, _⟩ := node.mapped
      rw [header_of_mapped hmapped, Option.some.injEq, Prod.mk.injEq] at hnode
      have hload := load32_size node.pageAddr hmapped
      have hloadNext := load32_next node.pageAddr hmapped
      rw [hnode.1] at hload
      rw [hnode.2] at hloadNext
      by_cases hlt : x.2 < size
      · obtain ⟨ys, zs, it', hfind, rfl, hzs, hys, hhead⟩ := ih n (pre ++ [x]) hrest
          (fun r hr => hnodes r (List.mem_cons_of_mem x hr)) (Nat.lt_of_succ_lt_succ hn)
        refine ⟨x :: ys, zs, it', ?_, rfl, hzs, ?_, hhead⟩
        · rw [NodeSeg.last_concat] at hfind
          simpa [findFit, hne, hload, hloadNext, hlt] using hfind
        · exact List.forall_mem_cons.2 ⟨hlt, hys⟩
      · refine ⟨[], x :: xs, x.1, ?_, rfl, ⟨rfl, hne, next, ?_, hrest⟩, by simp, ?_⟩
        · simp [findFit, hne, hload, hlt]
        · rw [header_of_mapped hmapped, hnode.1, hnode.2]
        · simpa using hlt

theorem findGap_eq (addr size n : Nat) (pre : List Segment) {xs : List Segment} {it : Nat}
    (hlist : NodeSeg vm.header it xs 0) (hnodes : ∀ r ∈ xs, NodeOk vm r) (hn : xs.length < n) :
    ∃ ys zs it', findGap addr size n (NodeSeg.last pre) it vm =
        .ok ((NodeSeg.last (pre ++ ys), it'), vm) ∧
      xs = ys ++ zs ∧ NodeSeg vm.header it' zs 0 ∧ (∀ r ∈ ys, r.1 + r.2 ≤ addr) ∧
      ∀ r ∈ zs.head?, addr < r.1 + r.2 := by
  induction xs generalizing pre it n with
  | nil =>
      obtain rfl : it = 0 := hlist
      obtain ⟨n, rfl⟩ := Nat.exists_eq_add_one_of_ne_zero (Nat.ne_of_gt hn)
      exact ⟨[], [], 0, by simp [findGap], rfl, rfl, by simp, by simp⟩
  | cons x xs ih =>
      obtain ⟨n, rfl⟩ := Nat.exists_eq_add_one_of_ne_zero (Nat.ne_zero_of_lt hn)
      obtain ⟨rfl, hne, next, hnode, hrest⟩ := hlist
      have node := hnodes x List.mem_cons_self
      obtain ⟨f, hmapped, _⟩ := node.mapped
      rw [header_of_mapped hmapped, Option.some.injEq, Prod.mk.injEq] at hnode
      have hload := load32_size node.pageAddr hmapped
      have hloadNext := load32_next node.pageAddr hmapped
      rw [hnode.1] at hload
      rw [hnode.2] at hloadNext
      have hend := Nat.mod_eq_of_lt node.lt
      by_cases hle : x.1 + x.2 ≤ addr
      · obtain ⟨ys, zs, it', hfind, rfl, hzs, hys, hhead⟩ := ih n (pre ++ [x]) hrest
          (fun r hr => hnodes r (List.mem_cons_of_mem x hr)) (Nat.lt_of_succ_lt_succ hn)
        refine ⟨x :: ys, zs, it', ?_, rfl, hzs, ?_, hhead⟩
        · rw [NodeSeg.last_concat] at hfind
          simpa [findGap, hne, hload, hloadNext, hend, hle, assert] using hfind
        · exact List.forall_mem_cons.2 ⟨hle, hys⟩
      · refine ⟨[], x :: xs, x.1, ?_, rfl, ⟨rfl, hne, next, ?_, hrest⟩, by simp, ?_⟩
        · simp [findGap, hne, hload, hend, hle]
        · rw [header_of_mapped hmapped, hnode.1, hnode.2]
        · simpa using hle

/-! ### Moving the node of a range, with the link to it -/

theorem run_onVm {α : Type} (m : Kernel Vm α) (s : RangeState P) :
    onVm m s = match m s.vm with
      | .ok (a, vm) => .ok (a, { s with vm := vm })
      | .error e => .error e := by
  simp only [onVm, Program.focus]
  cases m s.vm with
  | ok r => rfl
  | error e => rfl

namespace RangeOk

variable {s s' : RangeState P} {pre post : List Segment} {x y : Segment}

/-- The list around one of its ranges. -/
theorem parts (h : RangeOk s (pre ++ x :: post)) :
    NodeOk s.vm x ∧ NodeSeg s.vm.header s.allocator.ranges pre x.1 ∧ x.1 ≠ 0 ∧
      ∃ f next, s.vm.nodeFrame x = some f ∧ s.vm.pages.Held f 1 ∧ s.vm.word f 0 = x.2 ∧
        s.vm.word f 4 = next ∧ next < wordSize ∧ NodeSeg s.vm.header next post 0 := by
  have node := h.nodes x (by simp)
  obtain ⟨mid, hpre, rfl, hne, next, hnode, hpost⟩ := NodeSeg.append_iff.1 h.list
  obtain ⟨f, hmapped, hheld⟩ := node.mapped
  rw [header_of_mapped hmapped, Option.some.injEq, Prod.mk.injEq] at hnode
  exact ⟨node, hpre, hne, f, next, hmapped, hheld, hnode.1, hnode.2,
    hnode.2 ▸ Vm.word_lt s.vm f 4, hpost⟩

/-- The other ranges lie apart from it. -/
theorem apart (h : Spaced (pre ++ x :: post)) {r : Segment} (hr : r ∈ pre ++ post) :
    r.1 + r.2 < x.1 ∨ x.1 + x.2 < r.1 := by
  obtain ⟨_, hbefore, hafter⟩ := Spaced.middle_iff.1 h
  rcases List.mem_append.1 hr with hr | hr
  · exact Or.inl (hbefore r hr)
  · exact Or.inr (hafter r hr)

theorem node_of_mem (h : RangeOk s (pre ++ x :: post)) {r : Segment} (hr : r ∈ pre ++ post) :
    NodeOk s.vm r := by
  apply h.nodes
  simp only [List.mem_append, List.mem_cons] at hr ⊢
  tauto

/-- The frames of the ranges before and after one of them. -/
theorem frames_append (h : RangeOk s (pre ++ x :: post)) :
    (pre.map s.vm.nodeFrame).Nodup ∧
      ∀ r ∈ post, ∀ q ∈ pre, s.vm.nodeFrame r ≠ s.vm.nodeFrame q := by
  have hnodup := h.frames
  rw [List.map_append, List.nodup_append] at hnodup
  refine ⟨hnodup.1, ?_⟩
  intro r hr q hq heq
  have hmem : s.vm.nodeFrame r ∈ (x :: post).map s.vm.nodeFrame :=
    List.mem_map_of_mem (List.mem_cons_of_mem x hr)
  exact hnodup.2.2 _ (List.mem_map_of_mem hq) _ hmem heq.symm

/-- A moved node leaves the other ranges alone. -/
theorem keeps_of_moved {vm' : Vm} {f : Nat} (h : RangeOk s (pre ++ x :: post))
    (moved : Moved s.vm vm' f y.1 x.1 y.2) (hspaced : Spaced (pre ++ y :: post))
    (hbase : y.1 % PAGE_SIZE = 0) {r : Segment} (hr : r ∈ pre ++ post) : KeepsNode s.vm vm' r := by
  have hx := (h.parts).1
  have hapartX := apart h.spaced hr
  have hapartY := apart hspaced hr
  have hxmul := hx.page_mul
  have hymul : y.1 / PAGE_SIZE * PAGE_SIZE = y.1 :=
    Nat.div_mul_cancel (Nat.dvd_of_mod_eq_zero hbase)
  refine ⟨?_, fun f _ hheld => moved.held f hheld⟩
  intro page hlo hhi
  rw [moved.frameOf, Function.update_of_ne, Function.update_of_ne]
  · rintro rfl
    omega
  · rintro rfl
    omega

/-- Once the node of a range has been moved and the list before it linked to its new address, the
    memory holds the list with the moved range. -/
theorem move {vm' : Vm} {f : Nat} (h : RangeOk s (pre ++ x :: post))
    (hmapped : s.vm.nodeFrame x = some f) (moved : Moved s.vm vm' f y.1 x.1 y.2)
    (hspaced : Spaced (pre ++ y :: post)) (hbase : y.1 % PAGE_SIZE = 0) (hne : y.1 ≠ 0)
    (hxy : y.1 ≠ x.1) (hsize : y.2 % PAGE_SIZE = 0) (hpos : 0 < y.2) (hlt : y.1 + y.2 < wordSize)
    (hrest : ∀ page, y.1 < page * PAGE_SIZE → page * PAGE_SIZE < y.1 + y.2 →
      page ≠ x.1 / PAGE_SIZE → s.vm.frameOf page = none) :
    ∃ s', linkRange (NodeSeg.last pre) x.1 y.1 { s with vm := vm' } = .ok ((), s') ∧
      RangeOk s' (pre ++ y :: post) ∧
      s'.allocator = { s.allocator with ranges := s'.allocator.ranges } := by
  obtain ⟨hx, hpre, _, g, next, hg, hheld, _, hnext, _, hpost⟩ := h.parts
  obtain rfl : f = g := Option.some.inj (hmapped.symm.trans hg)
  have hkeeps := fun r hr => h.keeps_of_moved moved hspaced hbase (r := r) hr
  have hkept : ∀ r ∈ pre ++ post, vm'.nodeFrame r = s.vm.nodeFrame r := fun r hr =>
    (h.node_of_mem hr).keeps_frameOf (hkeeps r hr)
  have hheader : ∀ r ∈ pre ++ post, vm'.header r.1 = s.vm.header r.1 := by
    intro r hr
    apply header_congr (hkept r hr)
    intro e he
    apply moved.ram
    rintro rfl
    exact h.frame_ne hr (hmapped.trans he.symm)
  have hymul : y.1 / PAGE_SIZE * PAGE_SIZE = y.1 :=
    Nat.div_mul_cancel (Nat.dvd_of_mod_eq_zero hbase)
  have hpage : y.1 / PAGE_SIZE ≠ x.1 / PAGE_SIZE := by
    intro heq
    apply hxy
    rw [← hymul, ← hx.page_mul, heq]
  have hmapped' : vm'.nodeFrame y = some f := by
    rw [Vm.nodeFrame, moved.frameOf, Function.update_of_ne hpage, Function.update_self]
  have hpre' : NodeSeg vm'.header s.allocator.ranges pre x.1 :=
    hpre.congr fun r hr => hheader r (List.mem_append_left post hr)
  have hrest' : NodeSeg vm'.header y.1 (y :: post) 0 := by
    refine ⟨rfl, hne, next, ?_, hpost.congr fun r hr => hheader r (List.mem_append_right pre hr)⟩
    rw [header_of_mapped hmapped', moved.size, moved.next, hnext]
  obtain ⟨s', hlink, linked⟩ := linkRange_eq (s := { s with vm := vm' }) y.1 hpre'
    (fun r hr => (h.node_of_mem (List.mem_append_left post hr)).congr
      (hkeeps r (List.mem_append_left post hr)))
    (by rw [List.map_congr_left fun r hr => hkept r (List.mem_append_left post hr)]
        exact h.frames_append.1)
    (by omega)
  have hlist := linked.append hrest' (by
    intro r hr q hq
    rw [hkept q (List.mem_append_left post hq)]
    rcases List.mem_cons.1 hr with rfl | hr
    · rw [hmapped', ← hmapped]
      exact h.frame_ne (List.mem_append_left post hq)
    · rw [hkept r (List.mem_append_right pre hr)]
      exact h.frames_append.2 r hr q hq)
  refine ⟨s', hlink, ?_, linked.allocator⟩
  have hframe : ∀ r, s'.vm.nodeFrame r = vm'.nodeFrame r := fun r => by
    rw [Vm.nodeFrame, linked.frameOf]
    rfl
  have hold : pre ++ x :: post = pre ++ [x] ++ post := by simp
  have hnew : pre ++ y :: post = pre ++ [y] ++ post := by simp
  apply h.replace hold hnew hlist hspaced ?_ ?_ (by simp) ?_ (linked.pages ▸ moved.pages)
  · intro r hr
    refine ⟨fun page hlo hhi => ?_, fun f hf hheld => ?_⟩
    · rw [linked.frameOf]
      exact (hkeeps r hr).frameOf page hlo hhi
    · rw [linked.pages]
      exact (hkeeps r hr).held f hf hheld
  · intro r hr
    obtain rfl := List.mem_singleton.1 hr
    refine ⟨hbase, hsize, hpos, hlt, ⟨f, ?_, ?_⟩, ?_⟩
    · exact (hframe _).trans hmapped'
    · rw [linked.pages]
      exact moved.held f hheld
    · intro page hlo hhi
      rw [linked.frameOf]
      change vm'.frameOf page = none
      rw [moved.frameOf]
      by_cases heq : page = x.1 / PAGE_SIZE
      · rw [heq, Function.update_self]
      · rw [Function.update_of_ne heq, Function.update_of_ne, hrest page hlo hhi heq]
        rintro rfl
        omega
  · intro r hr q hq
    obtain rfl := List.mem_singleton.1 hr
    rw [hframe, hmapped', ← hmapped]
    exact h.frame_ne hq

/-- The list after one of its ranges has been extended over what follows it, in the same frame. -/
theorem extend {vm' : Vm} (old : List Segment) {f n next : Nat}
    (h : RangeOk s (pre ++ x :: (old ++ post))) (hmapped : s.vm.nodeFrame x = some f)
    (hmapped' : vm'.nodeFrame x = some f) (hsize : vm'.word f 0 = n) (hnext : vm'.word f 4 = next)
    (hpost : NodeSeg s.vm.header next post 0) (hram : ∀ g, g ≠ f → vm'.ram g = s.vm.ram g)
    (hpages : PagesOk vm'.pages) (hheld : vm'.pages.Held f 1)
    (hkeeps : ∀ r ∈ pre ++ post, KeepsNode s.vm vm' r) (haligned : n % PAGE_SIZE = 0) (hpos : 0 < n)
    (hlt : x.1 + n < wordSize) (hafter : ∀ r ∈ post, x.1 + n < r.1)
    (hrest : ∀ page, x.1 < page * PAGE_SIZE → page * PAGE_SIZE < x.1 + n → vm'.frameOf page = none) :
    RangeOk { s with vm := vm' } (pre ++ (x.1, n) :: post) := by
  obtain ⟨hx, hpre, hne, _⟩ := h.parts
  have hmem : ∀ r ∈ pre ++ post, r ∈ pre ++ (old ++ post) := by
    intro r hr
    simp only [List.mem_append] at hr ⊢
    tauto
  have hheader : ∀ r ∈ pre ++ post, vm'.header r.1 = s.vm.header r.1 := by
    intro r hr
    apply header_congr ((h.node_of_mem (hmem r hr)).keeps_frameOf (hkeeps r hr))
    intro g hg
    apply hram
    rintro rfl
    exact h.frame_ne (hmem r hr) (hmapped.trans hg.symm)
  have hold : pre ++ x :: (old ++ post) = pre ++ (x :: old) ++ post := by simp
  have hnew : pre ++ (x.1, n) :: post = pre ++ [(x.1, n)] ++ post := by simp
  apply h.replace hold hnew ?_ ?_ hkeeps ?_ (by simp) ?_ hpages
  · refine NodeSeg.append_iff.2 ⟨x.1, hpre.congr fun r hr => hheader r (List.mem_append_left post hr),
      rfl, hne, next, ?_, hpost.congr fun r hr => hheader r (List.mem_append_right pre hr)⟩
    rw [header_of_mapped hmapped', hsize, hnext]
  · obtain ⟨hspaced, hbefore, _⟩ := Spaced.middle_iff.1 h.spaced
    refine Spaced.middle_iff.2 ⟨?_, hbefore, hafter⟩
    exact hspaced.sublist ((List.sublist_append_right old post).append_left pre)
  · intro r hr
    obtain rfl := List.mem_singleton.1 hr
    exact ⟨hx.base, haligned, hpos, hlt, ⟨f, hmapped', hheld⟩, hrest⟩
  · intro r hr q hq heq
    obtain rfl := List.mem_singleton.1 hr
    exact h.frame_ne (hmem q hq) (hmapped.trans (hmapped'.symm.trans heq))

end RangeOk

/-! ### Allocation -/

section Alloc

variable [DecidableEq P] (current : P) {s : RangeState P} {pre post : List Segment}

/-- A whole range is taken off the list. -/
theorem allocWhole_spec {x : Segment} (h : RangeOk s (pre ++ x :: post)) :
    ∃ s', allocWhole current (NodeSeg.last pre) x.1 s = unlockAndReturn current (.ok x.1) s' ∧
      RangeOk s' (pre ++ post) ∧
      s'.allocator = { s.allocator with ranges := s'.allocator.ranges } := by
  obtain ⟨hx, hpre, _, f, next, hmapped, hheld, _, hnext, hlt, hpost⟩ := h.parts
  have hload := load32_next hx.pageAddr hmapped
  rw [hnext] at hload
  obtain ⟨s1, hlink, linked⟩ := linkRange_eq next hpre
    (fun r hr => h.node_of_mem (List.mem_append_left post hr)) h.frames_append.1 hlt
  have hmapped1 : s1.vm.frameOf (x.1 / PAGE_SIZE) = some f := by
    rw [linked.frameOf]
    exact hmapped
  have hpages1 : PagesOk s1.vm.pages := linked.pages ▸ h.pages
  have hheld1 : s1.vm.pages.Held f 1 := linked.pages ▸ hheld
  obtain ⟨vm2, hunmap, hframeOf, hram, hok, _, hothers⟩ :=
    unmapPage_cases s1.vm hpages1 hmapped1 hheld1
  rw [← pagingUnmap_small sizeofRange hx.base hx.pageAddr.lt (by decide) (by decide)]
    at hunmap
  rw [linked.frameOf] at hframeOf
  rw [linked.pages] at hothers
  have hkeeps : ∀ r ∈ pre ++ post, KeepsNode s.vm vm2 r := by
    intro r hr
    have hapart := RangeOk.apart h.spaced hr
    have hmul := hx.page_mul
    refine ⟨?_, ?_⟩
    · intro page hlo hhi
      rw [hframeOf, Function.update_of_ne]
      rintro rfl
      omega
    · intro g hg hheldG
      apply hothers g 1 ?_ hheldG
      rintro rfl
      exact h.frame_ne hr (hmapped.trans hg.symm)
  refine ⟨{ s1 with vm := vm2 }, ?_, ?_, linked.allocator⟩
  · simp only [allocWhole, Program.run_bind, run_onVm, hload, hlink, hunmap]
  · have hlist := linked.append hpost h.frames_append.2
    have hold : pre ++ x :: post = pre ++ [x] ++ post := by simp
    have hnew : pre ++ post = pre ++ [] ++ post := by simp
    refine h.replace hold hnew ?_ (Spaced.middle_iff.1 h.spaced).1 hkeeps (by simp) (by simp)
      (by simp) hok
    apply hlist.congr
    intro r hr
    apply header_congr
    · rw [hframeOf, linked.frameOf, Function.update_of_ne]
      intro heq
      have hkept := (h.node_of_mem hr).keeps_frameOf (hkeeps r hr)
      obtain ⟨g, hg, _⟩ := (h.node_of_mem hr).mapped
      rw [hg, hframeOf, heq, Function.update_self] at hkept
      simp at hkept
    · intro g _
      rw [hram]

/-- The front of a range is taken, or memory is exhausted and nothing has happened. -/
theorem allocFront_spec {it n : Nat} (size : Nat) (h : RangeOk s (pre ++ (it, n) :: post))
    (hsize : size % PAGE_SIZE = 0) (hpos : 0 < size) (hlt : size < n) :
    allocFront current size (NodeSeg.last pre) it s = unlockAndReturn current (.error .ENOMEM) s ∨
    ∃ s', allocFront current size (NodeSeg.last pre) it s = unlockAndReturn current (.ok it) s' ∧
      RangeOk s' (pre ++ (it + size, n - size) :: post) ∧
      s'.allocator = { s.allocator with ranges := s'.allocator.ranges } := by
  obtain ⟨hx, _, _, f, next, hmapped, hheld, hn, _⟩ := h.parts
  have hbase : it % PAGE_SIZE = 0 := hx.base
  have hnsize : n % PAGE_SIZE = 0 := hx.size
  have hend : it + n < wordSize := hx.lt
  have haddr : PageAddr (it + size) := by
    simp only [PAGE_SIZE] at hbase hsize
    exact ⟨by simp only [PAGE_SIZE]; omega, by omega⟩
  have hmod := Nat.mod_eq_of_lt haddr.lt
  have hmul : (it + size) / PAGE_SIZE * PAGE_SIZE = it + size :=
    Nat.div_mul_cancel (Nat.dvd_of_mod_eq_zero haddr.base)
  have hfree : s.vm.frameOf ((it + size) / PAGE_SIZE) = none := by
    apply hx.rest
    · rw [hmul]
      exact Nat.lt_add_of_pos_right hpos
    · rw [hmul]
      exact Nat.add_lt_add_left hlt it
  rcases moveNode_cases h.pages haddr hx.pageAddr hmapped hheld hfree with hnone |
    ⟨vm1, hcopy, hload, hstore⟩
  · left
    simp only [allocFront, Program.run_bind, run_onVm, hmod, hnone]
  · right
    have hnew : (s.vm.word f 0 + wordSize - size) % wordSize = n - size := by
      rw [hn]
      simp only [wordSize] at hend ⊢
      omega
    obtain ⟨vm2, vm3, hput, hunmap, moved⟩ := hstore (n - size) (by omega)
    obtain ⟨hrestSpaced, hbefore, hafter⟩ := Spaced.middle_iff.1 h.spaced
    have hspaced : Spaced (pre ++ (it + size, n - size) :: post) := by
      refine Spaced.middle_iff.2 ⟨hrestSpaced, ?_, ?_⟩
      · intro r hr
        have := hbefore r hr
        simp only at this ⊢
        omega
      · intro r hr
        have := hafter r hr
        simp only at this ⊢
        omega
    have hrest : ∀ page, it + size < page * PAGE_SIZE →
        page * PAGE_SIZE < it + size + (n - size) → page ≠ it / PAGE_SIZE →
        s.vm.frameOf page = none := by
      intro page hlo hhi _
      exact hx.rest page (Nat.lt_of_le_of_lt (Nat.le_add_right it size) hlo)
        (Nat.lt_of_lt_of_eq hhi (by simp only; omega))
    have hrem : (n - size) % PAGE_SIZE = 0 := by
      simp only [PAGE_SIZE] at hnsize hsize ⊢
      omega
    have hit : it + size ≠ 0 := by omega
    have hmoved : it + size ≠ it := by omega
    have hleft : 0 < n - size := by omega
    have hfits : it + size + (n - size) < wordSize := by omega
    obtain ⟨s', hlink, hok, hallocator⟩ := h.move (y := (it + size, n - size)) hmapped moved hspaced
      haddr.base hit hmoved hrem hleft hfits hrest
    refine ⟨s', ?_, hok, hallocator⟩
    simp only [allocFront, Program.run_bind, run_onVm, hmod, hcopy, hload, hnew, hput, hunmap, hlink]

/-- The allocator after `mutex_lock`. -/
def RangeState.locked (current : P) (s : RangeState P) : RangeState P :=
  { s with allocator :=
      { s.allocator with lock := (mutexLockSection current s.allocator.lock).1 } }

/-- A process that need not wait for the mutex. -/
def RangeState.LockFree (current : P) (s : RangeState P) : Prop :=
  s.allocator.lock.holder = none ∨ s.allocator.lock.holder = some current

theorem rangeLock_eq (h : s.LockFree current) : rangeLock current s = .ok ((), s.locked current) := by
  have hlock : mutexLockSection current s.allocator.lock =
      ({ holder := some current, level := (s.allocator.lock.level + 1) % 2 ^ 32, lock := false },
        .returns) := if_pos h
  simp only [rangeLock, Program.run_bind, Program.run_get, hlock, modifyAllocator,
    Program.run_modify, RangeState.locked]

theorem rangeLock_hang (h : ¬s.LockFree current) : rangeLock current s = .error .hang := by
  have hlock : mutexLockSection current s.allocator.lock =
      ({ s.allocator.lock with lock := false }, .retries) := if_neg h
  simp only [rangeLock, Program.run_bind, Program.run_get, hlock, Program.run_throw]

/-- `range_allocator_alloc`, when it gets past its first `ASSERT` and its lock, for a size that does not
    wrap. -/
theorem rangeAllocatorAlloc_spec {free : List Segment} {size : Nat} (h : RangeOk s free)
    (hranges : free ≠ []) (hlock : s.LockFree current) (hpos : 0 < roundUp size) :
    (rangeAllocatorAlloc current size s = .ok (.error .ENOMEM, s.locked current) ∧
      ∀ r ∈ free, r.2 < roundUp size) ∨
    (rangeAllocatorAlloc current size s =
        unlockAndReturn current (.error .ENOMEM) (s.locked current) ∧
      ∃ r ∈ free, roundUp size ≤ r.2) ∨
    ∃ s' pre it n post, rangeAllocatorAlloc current size s = unlockAndReturn current (.ok it) s' ∧
      free = pre ++ (it, n) :: post ∧ roundUp size ≤ n ∧
      RangeOk s' (pre ++ (if n = roundUp size then [] else [(it + roundUp size, n - roundUp size)])
        ++ post) ∧
      s'.allocator = { (s.locked current).allocator with ranges := s'.allocator.ranges } := by
  have hok : RangeOk (s.locked current) free := h.setLock _
  have hne : s.allocator.ranges ≠ 0 := fun heq => hranges (h.list.eq_nil_iff.2 heq)
  obtain ⟨ys, zs, it, hfind, rfl, hzs, hys, hhead⟩ := findFit_eq (roundUp size) wordSize []
    hok.list hok.nodes hok.length_lt
  rw [NodeSeg.last_nil, List.nil_append] at hfind
  have hstart : rangeAllocatorAlloc current size s = (do
      if it = 0 then
        return .error .ENOMEM
      else
        let itSize ← onVm (load32 it)
        if itSize = roundUp size then
          allocWhole current (NodeSeg.last ys) it
        else
          allocFront current (roundUp size) (NodeSeg.last ys) it : Kernel (RangeState P) _)
      (s.locked current) := by
    simp only [rangeAllocatorAlloc, Program.run_bind, Program.run_get, assert, Program.run_require,
      ne_eq, hne, not_false_eq_true, if_true, rangeLock_eq current hlock, run_onVm, hfind]
  cases zs with
  | nil =>
      left
      obtain rfl : it = 0 := hzs
      refine ⟨hstart, ?_⟩
      simpa using hys
  | cons x post =>
      right
      obtain ⟨rfl, hx0, _⟩ := hzs
      have hfit : roundUp size ≤ x.2 := hhead x rfl
      obtain ⟨hx, _, _, f, _, hmapped, _, hn, _⟩ := hok.parts
      have hload := load32_size hx.pageAddr hmapped
      rw [hn] at hload
      have hcase : rangeAllocatorAlloc current size s =
          (if x.2 = roundUp size then allocWhole current (NodeSeg.last ys) x.1
            else allocFront current (roundUp size) (NodeSeg.last ys) x.1) (s.locked current) := by
        simp only [hstart, if_neg hx0, Program.run_bind, run_onVm, hload]
      by_cases hwhole : x.2 = roundUp size
      · right
        rw [if_pos hwhole] at hcase
        obtain ⟨s', halloc, hok', hallocator⟩ := allocWhole_spec current hok
        refine ⟨s', ys, x.1, x.2, post, hcase.trans halloc, rfl, hfit, ?_, hallocator⟩
        simpa [hwhole] using hok'
      · rw [if_neg hwhole] at hcase
        rcases allocFront_spec current (roundUp size) hok (roundUp_mod size)
          hpos (by omega) with halloc | ⟨s', halloc, hok', hallocator⟩
        · left
          exact ⟨hcase.trans halloc, x, by simp, hfit⟩
        · right
          refine ⟨s', ys, x.1, x.2, post, hcase.trans halloc, rfl, hfit, ?_, hallocator⟩
          simpa [hwhole] using hok'

end Alloc

/-! ### Giving a block back -/

/-- A block lies between the ranges of the list, with none of its pages mapped. -/
structure BlockOk (vm : Vm) (pre post : List Segment) (addr size : Nat) : Prop where
  base : addr % PAGE_SIZE = 0
  aligned : size % PAGE_SIZE = 0
  pos : 0 < size
  ne : addr ≠ 0
  lt : addr + size < wordSize
  before : ∀ r ∈ pre, r.1 + r.2 ≤ addr
  after : ∀ r ∈ post, addr + size ≤ r.1
  unmapped : ∀ page, addr ≤ page * PAGE_SIZE → page * PAGE_SIZE < addr + size → vm.frameOf page = none

section Free

variable {s : RangeState P} {pre post : List Segment} {addr size : Nat}

theorem rangeEnd_eq {r : Segment} {f : Nat} (hr : PageAddr r.1) (hmapped : s.vm.nodeFrame r = some f)
    (hsize : s.vm.word f 0 = r.2) (hlt : r.1 + r.2 < wordSize) :
    rangeEnd r.1 s = .ok (r.1 + r.2, s) := by
  simp only [rangeEnd, Program.run_bind, run_onVm, load32_size hr hmapped, hsize, Program.run_pure,
    Nat.mod_eq_of_lt hlt]

/-- `fillGap` without a gap to fill does nothing. -/
theorem fillGap_none {r : Segment} {f it : Nat} (hr : PageAddr r.1)
    (hmapped : s.vm.nodeFrame r = some f) (hsize : s.vm.word f 0 = r.2) (hlt : r.1 + r.2 < wordSize)
    (hgap : ¬(it ≠ 0 ∧ r.1 + r.2 = it)) : fillGap r.1 it s = .ok ((), s) := by
  simp only [fillGap, Program.run_bind, rangeEnd_eq hr hmapped hsize hlt, if_neg hgap,
    Program.run_pure]

/-- The state after a range has taken in the range `x` that starts where it ends. -/
structure Joined (vm vm' : Vm) (f : Nat) (x : Segment) (size : Nat) : Prop where
  frameOf : vm'.frameOf = Function.update vm.frameOf (x.1 / PAGE_SIZE) none
  size : vm'.word f 0 = size
  next : ∀ g, vm.nodeFrame x = some g → vm'.word f 4 = vm.word g 4
  ram : ∀ g, g ≠ f → vm'.ram g = vm.ram g
  pages : PagesOk vm'.pages
  held : ∀ g, vm.nodeFrame x ≠ some g → vm.pages.Held g 1 → vm'.pages.Held g 1

theorem fillGap_some {r x : Segment} {f g : Nat} (ok : PagesOk s.vm.pages) (hr : PageAddr r.1)
    (hmapped : s.vm.nodeFrame r = some f) (hsize : s.vm.word f 0 = r.2) (hx : PageAddr x.1)
    (hx0 : x.1 ≠ 0) (hmappedX : s.vm.nodeFrame x = some g) (hheldX : s.vm.pages.Held g 1)
    (hsizeX : s.vm.word g 0 = x.2) (hne : f ≠ g) (hgap : r.1 + r.2 = x.1)
    (hlt : x.1 + x.2 < wordSize) :
    ∃ vm', fillGap r.1 x.1 s = .ok ((), { s with vm := vm' }) ∧ Joined s.vm vm' f x (r.2 + x.2) := by
  have hend := rangeEnd_eq hr hmapped hsize (by omega)
  have hsum : (r.2 + x.2) % wordSize = r.2 + x.2 := Nat.mod_eq_of_lt (by omega)
  have hsumLt : r.2 + x.2 < wordSize := by omega
  have hload := load32_size hr hmapped
  have hloadX := load32_size hx hmappedX
  rw [hsize] at hload
  rw [hsizeX] at hloadX
  have hstore := store32_size hr hmapped (r.2 + x.2)
  have hmapped1 : (s.vm.putWord f 0 (r.2 + x.2)).nodeFrame x = some g := hmappedX
  have hnext := load32_next hx hmapped1
  have hnextX : (s.vm.putWord f 0 (r.2 + x.2)).word g 4 = s.vm.word g 4 :=
    s.vm.word_putWord_of_ne 0 _ _ (Or.inl hne.symm)
  rw [hnextX] at hnext
  have hmapped2 : (s.vm.putWord f 0 (r.2 + x.2)).nodeFrame r = some f := hmapped
  have hlink := store32_next hr hmapped2 (s.vm.word g 4)
  obtain ⟨vm', hunmap, hframeOf, hram, hok, _, hothers⟩ :=
    unmapPage_cases ((s.vm.putWord f 0 (r.2 + x.2)).putWord f 4 (s.vm.word g 4)) ok hmappedX
      hheldX
  rw [← pagingUnmap_small sizeofRange hx.base hx.lt (by decide) (by decide)] at hunmap
  refine ⟨vm', ?_, hframeOf, ?_, ?_, ?_, hok, ?_⟩
  · simp only [fillGap, Program.run_bind, hend, ne_eq, hx0, not_false_eq_true, hgap, and_self, if_true,
      run_onVm, hload, hloadX, hsum, hstore, hnext, hlink, hunmap]
  · rw [Vm.word, hram]
    have hkeep := (s.vm.putWord f 0 (r.2 + x.2)).word_putWord_of_same f 4 0 (s.vm.word g 4)
      (Or.inl (by decide))
    exact hkeep.trans (Vm.word_putWord s.vm f 0 hsumLt)
  · intro g' hg'
    obtain rfl : g = g' := Option.some.inj (hmappedX.symm.trans hg')
    rw [Vm.word, hram]
    exact Vm.word_putWord _ f 4 (Vm.word_lt s.vm g 4)
  · intro g' hg'
    rw [hram, putWord_ram_of_ne hg', putWord_ram_of_ne hg']
  · intro g' hg' hheld
    apply hothers g' 1 ?_ hheld
    rintro rfl
    exact hg' hmappedX

/-- The end of the range before the block, where there is one. -/
theorem assertBefore_eq (h : RangeOk s (pre ++ post)) (hbefore : ∀ r ∈ pre, r.1 + r.2 < addr) :
    assertBefore (NodeSeg.last pre) addr s = .ok ((), s) := by
  rcases List.eq_nil_or_concat pre with rfl | ⟨pre, r, rfl⟩
  · simp [assertBefore]
  · rw [List.concat_eq_append, List.append_assoc] at h
    obtain ⟨hr, _, hne, f, _, hmapped, _, hn, _⟩ := h.parts
    have hlt : r.1 + r.2 < addr := hbefore r (by simp)
    rw [List.concat_eq_append, NodeSeg.last_concat]
    simp only [assertBefore, ne_eq, hne, not_false_eq_true, if_true, Program.run_bind,
      rangeEnd_eq hr.pageAddr hmapped hn hr.lt, assert, Program.run_require, hlt]

/-- The memory of `s` holds the list `free` with the block added to it. -/
def Freed (s : RangeState P) (free : List Segment) (addr size : Nat) : Prop :=
  ∃ free', RangeOk s free' ∧ ∀ x, coverage free' x = coverage free x + coverage [(addr, size)] x

variable [DecidableEq P] (current : P)

/-- The range before the block is extended, over the gap to the next range if the block fills it. -/
theorem freeAfter_spec (p n : Nat) {it : Nat} (h : RangeOk s (pre ++ (p, n) :: post)) (hend : p + n = addr)
    (block : BlockOk s.vm (pre ++ [(p, n)]) post addr size)
    (hpost : NodeSeg s.vm.header it post 0) :
    ∃ s', freeAfter current size p it s = unlockAndReturn current (.ok ()) s' ∧
      Freed s' (pre ++ (p, n) :: post) addr size ∧ s'.allocator = s.allocator := by
  obtain ⟨hx, hpre, hp0, f, next, hmapped, hheld, hn, hnext, _, hpost'⟩ := h.parts
  obtain rfl : it = next := by
    cases post with
    | nil => exact Eq.trans hpost hpost'.symm
    | cons y post => exact hpost.1.trans hpost'.1.symm
  have hbase : p % PAGE_SIZE = 0 := hx.base
  have hnsize : n % PAGE_SIZE = 0 := hx.size
  have hlt := block.lt
  have hpos := block.pos
  have haligned := block.aligned
  have hsum : (n + size) % wordSize = n + size := Nat.mod_eq_of_lt (by omega)
  have hload := load32_size hx.pageAddr hmapped
  rw [hn] at hload
  have hstore := store32_size hx.pageAddr hmapped (n + size)
  -- the extended range, in its own frame
  have hmapped1 : (s.vm.putWord f 0 (n + size)).nodeFrame (p, n + size) = some f := hmapped
  have hsize1 : (s.vm.putWord f 0 (n + size)).word f 0 = n + size :=
    Vm.word_putWord s.vm f 0 (by omega)
  have hnext1 : (s.vm.putWord f 0 (n + size)).word f 4 = it := by
    rw [← hnext]
    exact s.vm.word_putWord_of_same f 0 4 _ (Or.inr (by decide))
  have hother : ∀ r ∈ pre ++ post, ∀ g, s.vm.nodeFrame r = some g → g ≠ f := by
    rintro r hr g hg rfl
    exact h.frame_ne hr (hmapped.trans hg.symm)
  have hafter := block.after
  have hpmul := hx.page_mul
  have hrestBlock : ∀ page, p < page * PAGE_SIZE → page * PAGE_SIZE < p + (n + size) →
      s.vm.frameOf page = none := by
    intro page hlo hhi
    by_cases hin : page * PAGE_SIZE < p + n
    · exact hx.rest page hlo hin
    · exact block.unmapped page (by omega) (by omega)
  have hcoverage : ∀ x, coverage [(p, n + size)] x = coverage [(p, n)] x + coverage [(addr, size)] x := by
    intro x
    rw [coverage_split, hend]
  by_cases hgap : it ≠ 0 ∧ p + (n + size) = it
  · -- the next range is taken in as well
    cases post with
    | nil => exact absurd hpost hgap.1
    | cons y post =>
        obtain ⟨rfl, hy0, next', hnodeY, hpostY⟩ := hpost
        have hy := h.nodes y (by simp)
        obtain ⟨g, hmappedY, hheldY⟩ := hy.mapped
        rw [header_of_mapped hmappedY, Option.some.injEq, Prod.mk.injEq] at hnodeY
        have hne : f ≠ g := fun heq => hother y (by simp) g hmappedY heq.symm
        have hkeepY : ∀ off, (s.vm.putWord f 0 (n + size)).word g off = s.vm.word g off :=
          fun off => s.vm.word_putWord_of_ne 0 _ _ (Or.inl hne.symm)
        obtain ⟨vm', hfill, joined⟩ := fillGap_some (s := { s with vm := s.vm.putWord f 0 (n + size) })
          (r := (p, n + size)) (x := y) h.pages hx.pageAddr hmapped1 hsize1 hy.pageAddr hy0 hmappedY
          hheldY ((hkeepY 0).trans hnodeY.1) hne hgap.2 hy.lt
        have hyend := hy.lt
        have hypos := hy.pos
        have hysize := hy.size
        have hymul := hy.page_mul
        have hfree : pre ++ (p, n) :: y :: post = (pre ++ [(p, n)]) ++ y :: post := by simp
        have hY : RangeOk s ((pre ++ [(p, n)]) ++ y :: post) := hfree ▸ h
        obtain ⟨_, _, hafterY⟩ := Spaced.middle_iff.1 hY.spaced
        have hmem : ∀ r ∈ pre ++ post, r ∈ (pre ++ [(p, n)]) ++ post := by
          intro r hr
          simp only [List.mem_append] at hr ⊢
          tauto
        have hpage : p / PAGE_SIZE ≠ y.1 / PAGE_SIZE := by
          intro heq
          rw [heq] at hpmul
          simp only at hpmul
          omega
        refine ⟨{ s with vm := vm' }, ?_, ⟨pre ++ (p, n + size + y.2) :: post, ?_, ?_⟩, rfl⟩
        · simp only [freeAfter, Program.run_bind, run_onVm, hload, hsum, hstore, hfill]
        · have hmapped' : vm'.nodeFrame (p, n) = some f := by
            rw [Vm.nodeFrame, joined.frameOf, Function.update_of_ne hpage]
            exact hmapped
          have hnext' : vm'.word f 4 = next' :=
            (joined.next g hmappedY).trans ((hkeepY 4).trans hnodeY.2)
          have hheld' : vm'.pages.Held f 1 :=
            joined.held f (fun heq => hother y (by simp) f heq rfl) hheld
          have hkeeps : ∀ r ∈ pre ++ post, KeepsNode s.vm vm' r := by
            intro r hr
            have hapart := RangeOk.apart hY.spaced (hmem r hr)
            refine ⟨?_, ?_⟩
            · intro page hlo hhi
              rw [joined.frameOf, Function.update_of_ne, Vm.putWord_frameOf]
              rintro rfl
              omega
            · intro e he hheldE
              apply joined.held e ?_ hheldE
              intro heq
              exact hY.frame_ne (hmem r hr) (Eq.trans heq he.symm)
          have hrest : ∀ page, p < page * PAGE_SIZE → page * PAGE_SIZE < p + (n + size + y.2) →
              vm'.frameOf page = none := by
            intro page hlo hhi
            rw [joined.frameOf]
            by_cases heq : page = y.1 / PAGE_SIZE
            · rw [heq, Function.update_self]
            · rw [Function.update_of_ne heq, Vm.putWord_frameOf]
              by_cases hin : page * PAGE_SIZE < y.1
              · exact hrestBlock page hlo (by omega)
              · apply hy.rest page ?_ (by omega)
                simp only [PAGE_SIZE] at hin heq hymul ⊢
                omega
          have haligned' : (n + size + y.2) % PAGE_SIZE = 0 := by
            simp only [PAGE_SIZE] at hnsize haligned hysize ⊢
            omega
          refine h.extend [y] hmapped hmapped' joined.size hnext' hpostY ?_ joined.pages
            hheld' hkeeps haligned' (by omega) (by simp only; omega) ?_ hrest
          · intro e he
            rw [joined.ram e he, putWord_ram_of_ne he]
          · intro r hr
            have := hafterY r hr
            simp only
            omega
        · intro x
          rw [coverage_middle, coverage_middle, coverage_middle, coverage_split, hgap.2, Prod.mk.eta,
            hcoverage]
          omega
  · have hfill := fillGap_none (s := { s with vm := s.vm.putWord f 0 (n + size) })
      (r := (p, n + size)) hx.pageAddr hmapped1 hsize1 (by simp only; omega) hgap
    refine ⟨{ s with vm := s.vm.putWord f 0 (n + size) }, ?_, ⟨pre ++ (p, n + size) :: post, ?_, ?_⟩,
      rfl⟩
    · simp only [freeAfter, Program.run_bind, run_onVm, hload, hsum, hstore, hfill]
    · have haligned' : (n + size) % PAGE_SIZE = 0 := by
        simp only [PAGE_SIZE] at hnsize haligned ⊢
        omega
      refine h.extend [] hmapped hmapped1 hsize1 hnext1 hpost
        (fun g hg => putWord_ram_of_ne hg 0 _) h.pages hheld
        (fun r _ => ⟨fun _ _ _ => rfl, fun _ _ hg => hg⟩) haligned' (by omega) (by simp only; omega)
        ?_ hrestBlock
      intro r hr
      simp only
      cases post with
      | nil => simp at hr
      | cons y post =>
          obtain ⟨rfl, hy0, _⟩ := hpost
          have hyafter := hafter y List.mem_cons_self
          rcases List.mem_cons.1 hr with rfl | hr
          · omega
          · have hspacedY : Spaced ((pre ++ [(p, n)]) ++ y :: post) := by simpa using h.spaced
            have := (Spaced.middle_iff.1 hspacedY).2.2 r hr
            omega
    · intro x
      rw [coverage_middle, coverage_middle, hcoverage]
      omega

/-- The range after the block is extended down to its start, or memory is exhausted and nothing has
    happened. -/
theorem freeBefore_spec {x : Segment} (h : RangeOk s (pre ++ x :: post))
    (block : BlockOk s.vm pre (x :: post) addr size) (hbefore : ∀ r ∈ pre, r.1 + r.2 < addr)
    (hend : addr + size = x.1) :
    freeBefore current addr size (NodeSeg.last pre) x.1 s =
      unlockAndReturn current (.error .ENOMEM) s ∨
    ∃ s', freeBefore current addr size (NodeSeg.last pre) x.1 s = unlockAndReturn current (.ok ()) s' ∧
      Freed s' (pre ++ x :: post) addr size ∧
      s'.allocator = { s.allocator with ranges := s'.allocator.ranges } := by
  obtain ⟨hx, _, _, f, next, hmapped, hheld, hn, _⟩ := h.parts
  have hxlt := hx.lt
  have hxpos := hx.pos
  have hxsize := hx.size
  have hbpos := block.pos
  have haligned := block.aligned
  have haddr : PageAddr addr := ⟨block.base, by have := block.lt; omega⟩
  have hmul : addr / PAGE_SIZE * PAGE_SIZE = addr :=
    Nat.div_mul_cancel (Nat.dvd_of_mod_eq_zero block.base)
  have hfree : s.vm.frameOf (addr / PAGE_SIZE) = none :=
    block.unmapped _ (by rw [hmul]) (by rw [hmul]; omega)
  rcases moveNode_cases h.pages haddr hx.pageAddr hmapped hheld hfree with hnone |
    ⟨vm1, hcopy, hload, hstore⟩
  · left
    simp only [freeBefore, Program.run_bind, run_onVm, hnone]
  · right
    have hnew : (s.vm.word f 0 + size) % wordSize = x.2 + size := by
      rw [hn]
      exact Nat.mod_eq_of_lt (by omega)
    obtain ⟨vm2, vm3, hput, hunmap, moved⟩ := hstore (x.2 + size) (by omega)
    obtain ⟨hspacedRest, _, hafter⟩ := Spaced.middle_iff.1 h.spaced
    have hspaced : Spaced (pre ++ (addr, x.2 + size) :: post) := by
      refine Spaced.middle_iff.2 ⟨hspacedRest, hbefore, ?_⟩
      intro r hr
      have := hafter r hr
      simp only
      omega
    have hrest : ∀ page, addr < page * PAGE_SIZE → page * PAGE_SIZE < addr + (x.2 + size) →
        page ≠ x.1 / PAGE_SIZE → s.vm.frameOf page = none := by
      intro page hlo hhi hne
      by_cases hin : page * PAGE_SIZE < x.1
      · exact block.unmapped page (Nat.le_of_lt hlo) (by omega)
      · have hxmul := hx.page_mul
        apply hx.rest page ?_ (by omega)
        simp only [PAGE_SIZE] at hin hne hxmul ⊢
        omega
    have hsum : (x.2 + size) % PAGE_SIZE = 0 := by
      simp only [PAGE_SIZE] at hxsize haligned ⊢
      omega
    have hmoved : addr ≠ x.1 := by omega
    have hpos : 0 < x.2 + size := by omega
    have hlt : addr + (x.2 + size) < wordSize := by omega
    obtain ⟨s', hlink, hok, hallocator⟩ := h.move (y := (addr, x.2 + size)) hmapped moved hspaced
      block.base block.ne hmoved hsum hpos hlt hrest
    refine ⟨s', ?_, ⟨_, hok, ?_⟩, hallocator⟩
    · simp only [freeBefore, Program.run_bind, run_onVm, hcopy, hload, hnew, hput, hunmap, hlink]
    · intro y
      rw [coverage_middle, coverage_middle, Nat.add_comm x.2, coverage_split, hend, Prod.mk.eta]
      omega

/-- The block becomes a range of its own, or memory is exhausted and the list is as it was. -/
theorem freeAlone_spec {it : Nat} (h : RangeOk s (pre ++ post))
    (block : BlockOk s.vm pre post addr size) (hbefore : ∀ r ∈ pre, r.1 + r.2 < addr)
    (hafter : ∀ r ∈ post, addr + size < r.1) (hpre : NodeSeg s.vm.header s.allocator.ranges pre it)
    (hpost : NodeSeg s.vm.header it post 0) :
    (∃ s', freeAlone current addr size (NodeSeg.last pre) it s =
        unlockAndReturn current (.error .ENOMEM) s' ∧ RangeOk s' (pre ++ post) ∧
        s'.allocator = s.allocator) ∨
    ∃ s', freeAlone current addr size (NodeSeg.last pre) it s = unlockAndReturn current (.ok ()) s' ∧
      Freed s' (pre ++ post) addr size ∧
      s'.allocator = { s.allocator with ranges := s'.allocator.ranges } := by
  have hbpos := block.pos
  have hblt := block.lt
  have haddr : PageAddr addr := ⟨block.base, by omega⟩
  have hmod := Nat.mod_eq_of_lt block.lt
  have hmul : addr / PAGE_SIZE * PAGE_SIZE = addr :=
    Nat.div_mul_cancel (Nat.dvd_of_mod_eq_zero block.base)
  have hfree : s.vm.frameOf (addr / PAGE_SIZE) = none :=
    block.unmapped _ (by rw [hmul]) (by rw [hmul]; omega)
  have hit : it = 0 ∨ addr + size < it := by
    cases post with
    | nil => exact Or.inl hpost
    | cons x post => exact Or.inr (hpost.1 ▸ hafter x List.mem_cons_self)
  have hitlt : it < wordSize := by
    cases post with
    | nil =>
        obtain rfl : it = 0 := hpost
        decide
    | cons x post => exact hpost.1 ▸ (h.nodes x (by simp)).pageAddr.lt
  have hassert := assertBefore_eq h hbefore
  have hmap := pagingMapToFreePages_small s.vm sizeofRange haddr.base haddr.lt
    (by decide) (by decide) PAGE_WRITE
  rcases mapPageToFreePage_cases h.pages hfree PAGE_WRITE with ⟨vm1, hnone, keeps⟩ |
    ⟨f, vm1, hsome, hbit, hframeOf, hram, hok, hone, hheld⟩
  · left
    rw [← hmap] at hnone
    have hkeeps : ∀ r ∈ pre ++ post, KeepsNode s.vm vm1 r := fun r _ =>
      ⟨fun page _ _ => congrFun keeps.frameOf page, fun f _ hf => keeps.held f 1 hf⟩
    refine ⟨{ s with vm := vm1 }, ?_, ⟨?_, ?_, h.spaced, ?_, keeps.ok⟩, rfl⟩
    · simp only [freeAlone, Program.run_bind, hassert, assert, Program.run_require, hmod, hit, if_true,
        run_onVm, hnone]
    · apply h.list.congr
      intro r _
      apply header_congr (congrFun keeps.frameOf _)
      intro g _
      exact congrFun keeps.ram g
    · exact fun r hr => (h.nodes r hr).congr (hkeeps r hr)
    · have hsame : vm1.nodeFrame = s.vm.nodeFrame := by
        funext r
        exact congrFun keeps.frameOf _
      change ((pre ++ post).map vm1.nodeFrame).Nodup
      rw [hsame]
      exact h.frames
  · right
    rw [← hmap] at hsome
    have hmapped : vm1.frameOf (addr / PAGE_SIZE) = some f := by
      rw [hframeOf, Function.update_self]
    have hstore := store32_size haddr hmapped size
    have hmapped' : (vm1.putWord f 0 size).frameOf (addr / PAGE_SIZE) = some f := hmapped
    have hlink := store32_next haddr hmapped' it
    have hfresh : ∀ r ∈ pre ++ post, s.vm.nodeFrame r ≠ some f := by
      intro r hr heq
      obtain ⟨g, hg, hheldG⟩ := (h.nodes r hr).mapped
      obtain rfl : f = g := Option.some.inj (heq.symm.trans hg)
      have hclear := hheldG.clear
      rw [hbit] at hclear
      exact Bool.noConfusion hclear
    have hspaced : Spaced (pre ++ (addr, size) :: post) :=
      Spaced.middle_iff.2 ⟨h.spaced, hbefore, hafter⟩
    have hkeeps : ∀ r ∈ pre ++ post,
        KeepsNode s.vm ((vm1.putWord f 0 size).putWord f 4 it) r := by
      intro r hr
      have hapart := RangeOk.apart hspaced hr
      refine ⟨?_, fun g _ hg => hheld g 1 hg⟩
      intro page hlo hhi
      rw [Vm.putWord_frameOf, Vm.putWord_frameOf, hframeOf, Function.update_of_ne]
      rintro rfl
      simp only at hapart
      omega
    have hkept : ∀ r ∈ pre ++ post,
        ((vm1.putWord f 0 size).putWord f 4 it).nodeFrame r = s.vm.nodeFrame r := fun r hr =>
      (h.nodes r hr).keeps_frameOf (hkeeps r hr)
    have hheader : ∀ r ∈ pre ++ post,
        ((vm1.putWord f 0 size).putWord f 4 it).header r.1 = s.vm.header r.1 := by
      intro r hr
      apply header_congr (hkept r hr)
      intro g hg
      have hne : g ≠ f := by
        rintro rfl
        exact hfresh r hr hg
      rw [putWord_ram_of_ne hne, putWord_ram_of_ne hne, hram]
    have hnode : ((vm1.putWord f 0 size).putWord f 4 it).header addr = some (size, it) := by
      have hsize := (vm1.putWord f 0 size).word_putWord_of_same f 4 0 it (Or.inl (by decide))
      have hmapped'' : ((vm1.putWord f 0 size).putWord f 4 it).frameOf (addr / PAGE_SIZE) = some f :=
        hmapped
      rw [header_of_mapped hmapped'', hsize, Vm.word_putWord _ _ _ (by omega),
        Vm.word_putWord _ _ _ hitlt]
    obtain ⟨s', hset, linked⟩ := setLink_eq
      (s := { s with vm := (vm1.putWord f 0 size).putWord f 4 it }) addr
      (hpre.congr fun r hr => hheader r (List.mem_append_left post hr))
      (fun r hr => (h.nodes r (List.mem_append_left post hr)).congr
        (hkeeps r (List.mem_append_left post hr)))
      (by rw [List.map_congr_left fun r hr => hkept r (List.mem_append_left post hr)]
          have hnodup := h.frames
          rw [List.map_append, List.nodup_append] at hnodup
          exact hnodup.1) haddr.lt
    have hrest : NodeSeg ((vm1.putWord f 0 size).putWord f 4 it).header addr
        ((addr, size) :: post) 0 :=
      ⟨rfl, block.ne, it, hnode, hpost.congr fun r hr => hheader r (List.mem_append_right pre hr)⟩
    have hlist := linked.append hrest (by
      intro r hr q hq
      rw [hkept q (List.mem_append_left post hq)]
      rcases List.mem_cons.1 hr with rfl | hr
      · intro heq
        exact hfresh q (List.mem_append_left post hq) (heq.symm.trans hmapped)
      · rw [hkept r (List.mem_append_right pre hr)]
        have hnodup := h.frames
        rw [List.map_append, List.nodup_append] at hnodup
        intro heq
        exact hnodup.2.2 _ (List.mem_map_of_mem hq) _ (List.mem_map_of_mem hr) heq.symm)
    have hold : pre ++ post = pre ++ [] ++ post := by simp
    have hnew : pre ++ (addr, size) :: post = pre ++ [(addr, size)] ++ post := by simp
    refine ⟨s', ?_, ⟨pre ++ (addr, size) :: post, ?_, coverage_middle pre post _⟩, linked.allocator⟩
    · simp only [freeAlone, Program.run_bind, hassert, assert, Program.run_require, hmod, hit, if_true,
        run_onVm, hsome, hstore, hlink, hset]
    · apply h.replace hold hnew hlist hspaced ?_ ?_ (by simp) ?_ (linked.pages ▸ hok)
      · intro r hr
        refine ⟨fun page hlo hhi => ?_, fun g hg hheldG => ?_⟩
        · rw [linked.frameOf]
          exact (hkeeps r hr).frameOf page hlo hhi
        · rw [linked.pages]
          exact hheld g 1 hheldG
      · intro r hr
        obtain rfl := List.mem_singleton.1 hr
        refine ⟨block.base, block.aligned, hbpos, hblt, ⟨f, ?_, ?_⟩, ?_⟩
        · rw [linked.frameOf]
          exact hmapped
        · rw [linked.pages]
          exact hone
        · intro page hlo hhi
          rw [linked.frameOf]
          change vm1.frameOf page = none
          rw [hframeOf, Function.update_of_ne, block.unmapped page (Nat.le_of_lt hlo) hhi]
          rintro rfl
          simp only at hlo
          omega
      · intro r hr q hq heq
        obtain rfl := List.mem_singleton.1 hr
        rw [Vm.nodeFrame, linked.frameOf] at heq
        exact hfresh q hq (heq.symm.trans hmapped)

end Free

/-- `endsAt` on the last of the ranges before the block. -/
theorem endsAt_eq {s : RangeState P} {pre post : List Segment} {addr : Nat}
    (h : RangeOk s (pre ++ post)) (hbefore : ∀ r ∈ pre, r.1 + r.2 ≤ addr) :
    (endsAt (NodeSeg.last pre) addr s = .ok (false, s) ∧ ∀ r ∈ pre, r.1 + r.2 < addr) ∨
    ∃ pre' r, pre = pre' ++ [r] ∧ r.1 + r.2 = addr ∧
      endsAt (NodeSeg.last pre) addr s = .ok (true, s) := by
  rcases List.eq_nil_or_concat pre with rfl | ⟨pre, r, rfl⟩
  · exact Or.inl ⟨by simp [endsAt], by simp⟩
  · rw [List.concat_eq_append] at h hbefore ⊢
    rw [List.append_assoc] at h
    obtain ⟨hr, _, hne, f, _, hmapped, _, hn, _⟩ := h.parts
    have hends : endsAt (NodeSeg.last (pre ++ [r])) addr s =
        .ok (decide (r.1 + r.2 = addr), s) := by
      rw [NodeSeg.last_concat]
      simp only [endsAt, hne, if_false, Program.run_bind,
        rangeEnd_eq hr.pageAddr hmapped hn hr.lt, Program.run_pure]
    by_cases heq : r.1 + r.2 = addr
    · refine Or.inr ⟨pre, r, rfl, heq, ?_⟩
      rw [hends, decide_eq_true heq]
    · refine Or.inl ⟨?_, ?_⟩
      · rw [hends, decide_eq_false heq]
      · intro q hq
        have hle := hbefore q hq
        have hrle := hbefore r (by simp)
        rcases List.mem_append.1 hq with hq | hq
        · have := (Spaced.middle_iff.1 h.spaced).2.1 q hq
          omega
        · obtain rfl := List.mem_singleton.1 hq
          omega

/-- `range_allocator_free`, when it gets past its `ASSERT`s, its bounds and its lock, for a block that
    lies between the free ranges. -/
theorem rangeAllocatorFree_spec [DecidableEq P] {current : P} {s : RangeState P}
    {free : List Segment} {addr size : Nat} (h : RangeOk s free) (hranges : free ≠ [])
    (hlock : s.LockFree current) (hstart : s.allocator.start ≤ addr)
    (hfinish : addr + roundUp size ≤ s.allocator.finish)
    (block : BlockOk s.vm [] [] addr (roundUp size))
    (hapart : ∀ r ∈ free, r.1 + r.2 ≤ addr ∨ addr + roundUp size ≤ r.1) :
    ∃ r s', rangeAllocatorFree current addr size s = unlockAndReturn current r s' ∧
      s'.allocator = { (s.locked current).allocator with ranges := s'.allocator.ranges } ∧
      ((r = .error .ENOMEM ∧ RangeOk s' free) ∨
        (r = .ok () ∧ Freed s' free addr (roundUp size))) := by
  have hok : RangeOk (s.locked current) free := h.setLock _
  have hne : s.allocator.ranges ≠ 0 := fun heq => hranges (h.list.eq_nil_iff.2 heq)
  obtain ⟨ys, zs, it, hfind, rfl, hzs, hys, hhead⟩ := findGap_eq addr
    (roundUp size) wordSize [] hok.list hok.nodes hok.length_lt
  rw [NodeSeg.last_nil, List.nil_append] at hfind
  have hmod := Nat.mod_eq_of_lt block.lt
  have hbpos := block.pos
  have hinside : ¬(s.allocator.start > addr ∨ s.allocator.finish < (addr + roundUp size) % wordSize) := by
    rw [hmod]
    omega
  have hstartEq : rangeAllocatorFree current addr size s = (do
      if ← endsAt (NodeSeg.last ys) addr then
        freeAfter current (roundUp size) (NodeSeg.last ys) it
      else if it ≠ 0 ∧ it = (addr + roundUp size) % wordSize then
        freeBefore current addr (roundUp size) (NodeSeg.last ys) it
      else
        freeAlone current addr (roundUp size) (NodeSeg.last ys) it : Kernel (RangeState P) _)
      (s.locked current) := by
    simp only [rangeAllocatorFree, Program.run_bind, Program.run_get, assert, Program.run_require,
      block.base, ne_eq, hne, not_false_eq_true, if_true, if_neg hinside, rangeLock_eq current hlock, run_onVm,
      hfind]
  have hafter : ∀ r ∈ zs, addr + roundUp size ≤ r.1 := by
    cases zs with
    | nil => simp
    | cons x post =>
        have hx := hhead x rfl
        have hxapart := hapart x (by simp)
        have hspaced := (Spaced.middle_iff.1 h.spaced).2.2
        intro r hr
        rcases List.mem_cons.1 hr with rfl | hr
        · omega
        · have := hspaced r hr
          omega
  have hunmapped : ∀ page, addr ≤ page * PAGE_SIZE → page * PAGE_SIZE < addr + roundUp size →
      (s.locked current).vm.frameOf page = none := block.unmapped
  have block' : BlockOk (s.locked current).vm ys zs addr (roundUp size) :=
    ⟨block.base, block.aligned, block.pos, block.ne, block.lt, hys, hafter, hunmapped⟩
  obtain ⟨mid, hpre, hmid⟩ := NodeSeg.append_iff.1 hok.list
  obtain rfl : mid = it := by
    cases zs with
    | nil => exact Eq.trans hmid hzs.symm
    | cons x post => exact hmid.1.trans hzs.1.symm
  rcases endsAt_eq hok hys with ⟨hends, hbefore⟩ | ⟨pre, r, rfl, hr, hends⟩
  · by_cases hnext : mid ≠ 0 ∧ mid = (addr + roundUp size) % wordSize
    · cases zs with
      | nil => exact absurd hzs hnext.1
      | cons x post =>
          obtain rfl : mid = x.1 := hzs.1
          have hend : addr + roundUp size = x.1 := by rw [hnext.2, hmod]
          have hcase : rangeAllocatorFree current addr size s =
              freeBefore current addr (roundUp size) (NodeSeg.last ys) x.1 (s.locked current) := by
            simp only [hstartEq, Program.run_bind, hends, if_pos hnext]
            rfl
          rcases freeBefore_spec current hok block' hbefore hend with hfree |
            ⟨s', hfree, hfreed, hallocator⟩
          · exact ⟨_, _, hcase.trans hfree, rfl, Or.inl ⟨rfl, hok⟩⟩
          · exact ⟨_, _, hcase.trans hfree, hallocator, Or.inr ⟨rfl, hfreed⟩⟩
    · have hcase : rangeAllocatorFree current addr size s =
          freeAlone current addr (roundUp size) (NodeSeg.last ys) mid (s.locked current) := by
        simp only [hstartEq, Program.run_bind, hends, if_neg hnext]
        rfl
      have hstrict : ∀ r ∈ zs, addr + roundUp size < r.1 := by
        cases zs with
        | nil => simp
        | cons x post =>
            obtain rfl : mid = x.1 := hzs.1
            have hle := hafter x List.mem_cons_self
            have hspaced := (Spaced.middle_iff.1 h.spaced).2.2
            rw [hmod] at hnext
            intro r hr
            rcases List.mem_cons.1 hr with rfl | hr
            · have := hzs.2.1
              omega
            · have := hspaced r hr
              omega
      rcases freeAlone_spec current hok block' hbefore hstrict hpre hzs with
        ⟨s', hfree, hok', hallocator⟩ | ⟨s', hfree, hfreed, hallocator⟩
      · exact ⟨_, s', hcase.trans hfree, by rw [hallocator], Or.inl ⟨rfl, hok'⟩⟩
      · exact ⟨_, s', hcase.trans hfree, hallocator, Or.inr ⟨rfl, hfreed⟩⟩
  · have hcase : rangeAllocatorFree current addr size s =
        freeAfter current (roundUp size) (NodeSeg.last (pre ++ [r])) mid (s.locked current) := by
      simp only [hstartEq, Program.run_bind, hends]
      rfl
    rw [NodeSeg.last_concat] at hcase
    have hlist : pre ++ [r] ++ zs = pre ++ r :: zs := by simp
    rw [hlist] at hok
    obtain ⟨s', hfree, hfreed, hallocator⟩ :=
      freeAfter_spec current r.1 r.2 hok hr block' hzs
    exact ⟨_, s', hcase.trans hfree, by rw [hallocator], Or.inr ⟨rfl, hlist ▸ hfreed⟩⟩

end Chaotix
