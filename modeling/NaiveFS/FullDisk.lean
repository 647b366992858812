import NaiveFS.FreshSound
import NaiveFS.LookupSound

/-!
# A directory that fills the disk

Removed entries keep their place, so creating and removing one file over and over
grows the root directory block by block, until all 33 block groups are full. The
next block is then the first of group 32 once more, which the directory holds
already: its entries are wiped.
-/

namespace NaiveFS

namespace Groups

/-- `u` blocks and `m` inodes are in use, in no more groups than that takes. -/
structure Stock (u m : Nat) (g : Groups) : Prop where
  books : g.Books
  blocks : g.super.sCount .block = 3 + u
  inodes : g.super.sCount .inode = m
  few : g.groupCount = 1 ∨ 32768 * (g.groupCount - 1) < u

theorem free_count {k : Kind} {i : Nat} {g g' : Groups} (hi : g.allocated k i = true)
    (hf : g.free k i = some (true, g')) (k' : Kind) :
    g'.super.sCount k' = if k' = k then sub32 (g.super.sCount k) 1 else g.super.sCount k' := by
  obtain ⟨bg, hfind, -, ht⟩ := allocated_iff.mp hi
  rw [free_eq k i g hfind ht, Option.some.injEq, Prod.mk.injEq] at hf
  rw [← hf.2]
  by_cases hk : k' = k
  · subst hk
    simp [release, SuperBlock.setFree, setCount, SuperBlock.setCount]
  · simp [release, SuperBlock.setFree, setCount, SuperBlock.setCount, hk]

namespace Stock

variable {u m i : Nat} {g g' : Groups}

theorem alloc (h : Stock u m g) (hu : u < 32768 * 33) :
    ∃ b, g.alloc .block = (some (b, g.hasFree .block), (g.alloc .block).2) ∧
      Stock (u + 1) m (g.alloc .block).2 := by
  have hblocks := h.blocks
  have hroom := h.books.ledger.room h.books.le (by omega)
  obtain ⟨b, g', heq, hout, hled⟩ := h.books.ledger.alloc_of_room h.books.le hroom
  have hcount := hled.groupCount_eq
  rw [heq]
  have hfew := h.few
  have hle := h.books.le
  have hmore : g'.groupCount ≤ 33 ∧ (g'.groupCount = 1 ∨ 32768 * (g'.groupCount - 1) < u + 1) := by
    rw [hcount]
    cases hhas : g.hasFree .block with
    | true =>
      rw [if_pos rfl]
      omega
    | false =>
      have hfull := h.books.ledger.count_full hhas
      have hsum := (sum_capacity h.books.ledger.pos).1
      simp only [baseCount, hsum] at hfull
      have hle := hroom.resolve_left (by simp [hhas])
      rw [if_neg Bool.false_ne_true]
      omega
  refine ⟨b, rfl, hled.books hmore.1, ?_, ?_, hmore.2⟩
  · rw [hout.count, if_pos rfl, hblocks]
    rfl
  · rw [hout.count, if_neg (by decide)]
    exact h.inodes

theorem hasFree_inode (h : Stock u m g) (hm : m ≤ 3) :
    (g.super.slots 0).bgFreeCount .inode ≠ 0 := by
  have hpos := h.books.ledger.pos
  have hfree := h.books.ledger.free .inode 0 hpos
  have hcount := h.books.ledger.count .inode
  have hle : g.used .inode 0 ≤ ∑ j ∈ Finset.range g.groupCount, g.used .inode j :=
    Finset.single_le_sum (f := fun j => g.used .inode j) (fun _ _ => Nat.zero_le _)
      (Finset.mem_range.mpr hpos)
  rw [h.inodes] at hcount
  simp only [baseCount, capacity] at hcount hfree
  omega

theorem allocInode (h : Stock u m g) (hm : m ≤ 3) :
    ∃ i, g.alloc .inode = (some (i, true), (g.alloc .inode).2) ∧
      HandedOut .inode i g (g.alloc .inode).2 ∧ Stock u (m + 1) (g.alloc .inode).2 := by
  have hhas := (h.books.ledger.hasFree_iff .inode).mpr ⟨0, h.books.ledger.pos, h.hasFree_inode hm⟩
  obtain ⟨i, g', heq, hout, hled⟩ := h.books.ledger.alloc_of_room h.books.le (Or.inl hhas)
  rw [hhas] at heq hled
  have hcount := hled.groupCount_eq
  rw [if_pos rfl] at hcount
  rw [heq]
  refine ⟨i, rfl, hout, hled.books (hcount ▸ h.books.le), ?_, ?_, hcount ▸ h.few⟩
  · rw [hout.count, if_neg (by decide)]
    exact h.blocks
  · rw [hout.count, if_pos rfl, h.inodes]

theorem freeInode (h : Stock u (m + 1) g) (hi : g.allocated .inode i = true)
    (hf : g.free .inode i = some (true, g')) :
    Stock u m g' := by
  obtain ⟨g₁, heq, hbooks, -⟩ := h.books.free hi
  cases heq.symm.trans hf
  have hgroups := (h.books.resident.free hf).2.1
  have hcount := free_count hi hf
  have hle := h.books.ledger.count_le
  have hfew := h.books.le
  refine ⟨hbooks, ?_, ?_, by rw [hgroups]; exact h.few⟩
  · rw [hcount, if_neg (by decide)]
    exact h.blocks
  · rw [hcount, if_pos rfl]
    rw [h.inodes] at hle ⊢
    unfold sub32
    omega

theorem full {n : Nat} (h : Stock u m g) (hu : u = 32768 * n) (hn : 0 < n) :
    Ledger n g ∧ g.hasFree .block = false := by
  have hblocks := h.blocks
  have hfew := h.few
  have hle := h.books.ledger.count_le
  have hcount : g.groupCount = n := by omega
  have hled := h.books.ledger
  rw [hcount] at hled
  exact ⟨hled, hled.full (by rw [hblocks, hu])⟩

end Stock

end Groups

namespace FS

open Groups

/-! ## The blocks of a file -/

/-- Data and indirect blocks of a file with `n` data blocks. -/
def treeBlocks : Nat → Nat
  | 0 => 0
  | n + 1 => treeBlocks n + 1 + indirectsFor n

theorem treeBlocks_zero : treeBlocks 0 = 0 := rfl

theorem treeBlocks_succ (n : Nat) : treeBlocks (n + 1) = treeBlocks n + 1 + indirectsFor n := rfl

theorem treeBlocks_ge (n : Nat) : n ≤ treeBlocks n := by
  induction n with
  | zero => exact Nat.zero_le _
  | succ n ih =>
    rw [treeBlocks_succ]
    omega

theorem indirectsFor_dind {m : Nat} (h : m < maxDindBlocks) :
    indirectsFor (maxDirBlocks + maxIndBlocks + m) =
      (if m = 0 then 1 else 0) + if m % numIndirectBlocks = 0 then 1 else 0 := by
  unfold indirectsFor
  rw [if_neg (by omega), if_neg (by omega), if_pos (by omega)]
  simp only [show maxDirBlocks + maxIndBlocks + m - maxDirBlocks - maxIndBlocks = m by omega]

theorem indirectsFor_tind (m : Nat) :
    indirectsFor (maxDirBlocks + maxIndBlocks + maxDindBlocks + m) =
      (if m = 0 then 1 else 0) + if m % maxDindBlocks = 0 then 2 else if m % maxIndBlocks = 0 then
      1 else 0 := by
  unfold indirectsFor
  rw [if_neg (by omega), if_neg (by omega), if_neg (by omega)]
  simp only [show maxDirBlocks + maxIndBlocks + maxDindBlocks + m - maxDirBlocks - maxIndBlocks -
    maxDindBlocks = m by omega]

theorem treeBlocks_ind :
    treeBlocks (maxDirBlocks + maxIndBlocks) = maxDirBlocks + maxIndBlocks + 1 := by decide +kernel

attribute [irreducible] treeBlocks

theorem treeBlocks_dind : ∀ {m : Nat}, m < maxDindBlocks →
    treeBlocks (maxDirBlocks + maxIndBlocks + (m + 1)) =
      maxDirBlocks + maxIndBlocks + m + 4 + m / numIndirectBlocks := by
  intro m
  induction m with
  | zero =>
    intro h
    rw [← Nat.add_assoc, treeBlocks_succ, Nat.add_zero, treeBlocks_ind]
    decide
  | succ m ih =>
    intro h
    have ih := ih (Nat.lt_of_succ_lt h)
    rw [← Nat.add_assoc, treeBlocks_succ, indirectsFor_dind h, ih, if_neg (Nat.succ_ne_zero m)]
    simp only [show numIndirectBlocks = 1024 from rfl]
    split <;> omega

theorem treeBlocks_tind : ∀ {m : Nat}, m < maxDindBlocks →
    treeBlocks (maxDirBlocks + maxIndBlocks + maxDindBlocks + (m + 1)) =
      maxDirBlocks + maxIndBlocks + maxDindBlocks + m + 1030 + m / maxIndBlocks := by
  intro m
  induction m with
  | zero =>
    intro h
    have hdind := treeBlocks_dind (m := maxDindBlocks - 1) (by decide)
    rw [Nat.sub_add_cancel (show 1 ≤ maxDindBlocks by decide)] at hdind
    have hsucc := treeBlocks_succ (maxDirBlocks + maxIndBlocks + maxDindBlocks)
    rw [hdind] at hsucc
    exact hsucc.trans (by decide)
  | succ m ih =>
    intro h
    have ih := ih (Nat.lt_of_succ_lt h)
    rw [← Nat.add_assoc, treeBlocks_succ, indirectsFor_tind, ih, if_neg (Nat.succ_ne_zero m),
      Nat.mod_eq_of_lt h, if_neg (Nat.succ_ne_zero m)]
    simp only [show maxIndBlocks = 1024 from rfl]
    split <;> omega

theorem treeBlocks_32 : treeBlocks 1047552 = 32768 * 32 :=
  calc treeBlocks 1047552
    _ = treeBlocks (maxDirBlocks + maxIndBlocks + (1046515 + 1)) := congrArg treeBlocks (by decide)
    _ = maxDirBlocks + maxIndBlocks + 1046515 + 4 + 1046515 / numIndirectBlocks :=
      treeBlocks_dind (by decide)
    _ = 32768 * 32 := by decide

theorem treeBlocks_33 : treeBlocks 1080286 = 32768 * 33 :=
  calc treeBlocks 1080286
    _ = treeBlocks (maxDirBlocks + maxIndBlocks + maxDindBlocks + (30673 + 1)) :=
      congrArg treeBlocks (by decide)
    _ = maxDirBlocks + maxIndBlocks + maxDindBlocks + 30673 + 1030 + 30673 / maxIndBlocks :=
      treeBlocks_tind (by decide)
    _ = 32768 * 33 := by decide

/-! ## One more entry -/

variable {s s' t : FS} {n k m i b mode : Nat} {c : UInt8} {name : Name}

theorem allocIndirects_stock :
    ∀ (k : Nat) {u : Nat} {g : Groups}, Stock u m g → u + k ≤ 32768 * 33 →
    Stock (u + k) m (allocIndirects k g).2 := by
  intro k
  induction k with
  | zero => exact fun h _ => h
  | succ k ih =>
    intro u g h hu
    obtain ⟨b, -, h'⟩ := h.alloc (by omega)
    rw [allocIndirects_succ, show u + (k + 1) = u + 1 + k by omega]
    exact ih h' (by omega)

theorem allocBlock_stock (h : Stock (treeBlocks n) m s.groups) (hb : (s.inodes i).iBlocks = 8 * n)
    (hu : treeBlocks (n + 1) ≤ 32768 * 33) :
    Stock (treeBlocks (n + 1)) m (s.allocBlock i).2.groups := by
  rw [treeBlocks_succ] at hu ⊢
  obtain ⟨b, -, h₁⟩ := h.alloc (by omega)
  have hn : numAlignedBlocks (s.inodes i).iBlocks = n := by
    rw [hb]
    unfold numAlignedBlocks
    simp [logBlockSize]
  obtain ⟨b', served, -, heq⟩ := allocBlock_some i s
  rw [heq]
  show Stock _ m (takenFor (s.inodes i) s.groups)
  rw [takenFor, hn]
  exact allocIndirects_stock (indirectsFor n) h₁ hu

theorem dentryCreate_old {parent index : Nat}
    (hfit : s.blockBytes b + dentrySize + name.length ≤ blockSize) :
    s.dentryCreate (some b) parent name index mode =
      some (.success,
        { s with
          dents := Function.update s.dents b (s.dents b ++ [Dentry.make name index mode]) }) := by
  simp only [dentryCreate, Calls.dentryCreate, blockForDentry, Calls.blockForDentry]
  rw [if_neg (Nat.not_lt.mpr hfit)]
  simp only
  rw [if_neg (by omega)]

theorem dentryCreate_new {last : Option Nat} {parent index : Nat}
    (hfull : ∀ b, last = some b → blockSize < s.blockBytes b + dentrySize + name.length)
    (hlen : dentrySize + name.length ≤ blockSize) (ha : s.allocBlock parent = (some b, t)) :
    s.dentryCreate last parent name index mode =
      some (.success,
        { t with dents := Function.update t.dents b [Dentry.make name index mode] }) := by
  have hempty := allocBlock_dents ha
  cases last with
  | some b₀ =>
    simp only [dentryCreate, Calls.dentryCreate, blockForDentry, Calls.blockForDentry]
    rw [if_pos (hfull b₀ rfl), ha]
    simp only
    rw [if_neg (Nat.not_lt.mpr hlen), hempty, List.nil_append]
  | none =>
    have hbytes : ¬ t.blockBytes b + dentrySize + name.length > blockSize := by
      rw [blockBytes, hempty]
      simpa using hlen
    simp only [dentryCreate, Calls.dentryCreate, blockForDentry, Calls.blockForDentry, ha]
    rw [if_neg hbytes]
    simp only
    rw [if_neg (Nat.not_lt.mpr hlen), hempty, List.nil_append]

/-- A file of the root directory with a name of one character. -/
def file (c : UInt8) : ShortPath := ⟨.of [[c]], by simp [Path.of], by simp [Path.of]⟩

theorem file_parent (c : UInt8) : s.inodeLookup (file c).1.parent = (.ok rootInode, s) :=
  inodeLookup_root _ (file c).2.1 rfl

theorem inodeCreate_file (hdir : isDir (s.inodes rootInode).iMode = true)
    (hnew : ∀ e ∈ s.entries rootInode, e.hasName [c] = false)
    (hi : s.allocInode mode = (some i, t))
    (hd : t.dentryCreate (s.inodes rootInode).iBlock.getLast? rootInode [c] i mode =
      some (.success, s')) :
    s.inodeCreate (file c) mode = some (.ok i, s') := by
  have hscan := inodeLookupIn_new hnew
  have hroot : deref rootInode = rootInode := rfl
  have hback : (file c).1.back = [c] := rfl
  have hvalid : (file c).1.valid = true := (file c).2.1
  have hnames : (file c).1.names.isEmpty = false := rfl
  unfold inodeCreate Calls.inodeCreate
  simp only [hvalid, hnames, file_parent, hroot, hback, hdir, hscan, hi, hd, Bool.not_true,
    Bool.false_eq_true, if_false]

/-! ## The root directory at work -/

/-- The root directory has `n` blocks, and `k` entries of 9 bytes in the last one.
No block at all is as good as a full one. -/
structure Brim (n k m : Nat) (s : FS) : Prop where
  charted : s.Charted
  stock : Stock (treeBlocks n) m s.groups
  length : (s.inodes rootInode).iBlock.length = n
  blocks : (s.inodes rootInode).iBlocks = 8 * n
  last : ∀ b, (s.inodes rootInode).iBlock.getLast? = some b → s.blockBytes b = 9 * k
  le : k ≤ 455
  start : n = 0 → k = 455

/-- What creating `/c` has done: the entry is in block `b`. -/
structure Made (c : UInt8) (i b : Nat) (s s' : FS) : Prop where
  listing : s'.listing rootInode = s.listing rootInode ++ [([c], i)]
  record : isReg (s'.inodes i).iMode = true ∧ (s'.inodes i).iLinksCount = 1
  dcache : s'.dcache = s.dcache
  blocks : (s'.inodes rootInode).iBlock = (s.inodes rootInode).iBlock ∧
    b ∈ (s.inodes rootInode).iBlock ∨
    (s'.inodes rootInode).iBlock = (s.inodes rootInode).iBlock ++ [b]
  others : ∀ x, x ≠ b → s'.dents x = s.dents x
  content : ∀ e ∈ s'.dents b, e = Dentry.make [c] i sIfreg ∨ b ∈ (s.inodes rootInode).iBlock ∧
    e ∈ s.dents b
  fresh : s.groups.allocated .inode i = false
  records : ∀ j, j ≠ i → j ≠ rootInode → s'.inodes j = s.inodes j

theorem Made.mem_blocks (h : Made c i b s s') {x : Nat} (hx : x ∈ (s'.inodes rootInode).iBlock) :
    x = b ∨ x ∈ (s.inodes rootInode).iBlock := by
  rcases h.blocks with ⟨heq, -⟩ | heq <;> rw [heq] at hx
  · exact Or.inr hx
  · rw [List.mem_append, List.mem_singleton] at hx
    exact hx.symm

theorem Made.grows (h : Made c i b s s') :
    (s.inodes rootInode).iBlock <+: (s'.inodes rootInode).iBlock := by
  rcases h.blocks with ⟨heq, -⟩ | heq <;> rw [heq]
  exact List.prefix_append _ _

theorem blockBytes_append (s : FS) (b : Nat) (c : UInt8) (i mode : Nat) (es : List Dentry) :
    ({ s with dents := Function.update s.dents b (es ++ [Dentry.make [c] i mode]) } : FS).blockBytes
      b =
      (es.map Dentry.recLen).sum + 9 := by
  simp [blockBytes, Dentry.make, dentrySize, u16]

/-- The state between the new inode and its entry. -/
def withFile (s : FS) (i : Nat) : FS :=
  { s with
    groups := (s.groups.alloc .inode).2
    inodes := Function.update s.inodes i (inodeInit (blankInode sIfreg)) }

namespace Brim

variable (h : Brim n k m s)
include h

theorem dir : isDir (s.inodes rootInode).iMode = true :=
  (isDirectory_iff.mp h.charted.order.linked.graph.root).2

theorem served (hm : m ≤ 3) : s.groups.hasFree .inode = true :=
  (h.stock.books.ledger.hasFree_iff .inode).mpr ⟨0, h.stock.books.ledger.pos,
    h.stock.hasFree_inode hm⟩

theorem allocInode (hm : m ≤ 3) :
    ∃ i, s.allocInode sIfreg = (some i, s.withFile i) ∧ i ≠ rootInode ∧
      s.groups.allocated .inode i = false ∧ Stock (treeBlocks n) (m + 1) (s.withFile i).groups := by
  obtain ⟨i, heq, hout, hstock⟩ := h.stock.allocInode hm
  refine ⟨i, ?_, ?_, hout.free, hstock⟩
  · rw [FS.allocInode, heq]
    rfl
  · rintro rfl
    have := hout.free
    rw [h.charted.order.tidy.root] at this
    cases this

theorem entries_new (hnew : [c] ∉ s.listed rootInode) :
    ∀ e ∈ s.entries rootInode, e.hasName [c] = false := by
  intro e he
  rw [Bool.eq_false_iff]
  intro hn
  exact hnew ((h.charted.order.tidy.mem_listed_iff h.charted.order.tidy.root
    (List.cons_ne_nil c [])).mpr ⟨e, he, hn⟩)

theorem made (hm : m ≤ 3) (hc : s.inodeCreate (file c) sIfreg = some (.ok i, s'))
    (hle : s'.groups.groupCount ≤ 33) :
    s'.Charted ∧ s'.listing rootInode = s.listing rootInode ++ [([c], i)] := by
  refine ⟨h.charted.created (Path.back_short _) (Or.inl rfl) (h.served hm) hc hle, ?_⟩
  obtain ⟨p, hp, -, -, hl, -⟩ :=
    (h.charted.order.tidy.created (Path.back_short _) hc hle).2.added i rfl
  rw [file_parent] at hp
  cases hp
  exact hl

theorem create_old (hm : m ≤ 3) (hnew : [c] ∉ s.listed rootInode) (hk : k < 455) :
    ∃ i b s', s.inodeCreate (file c) sIfreg = some (.ok i, s') ∧ Made c i b s s' ∧
      Brim n (k + 1) (m + 1) s' := by
  obtain ⟨i, hi, hir, hfree, hstock⟩ := h.allocInode hm
  have hroot : (s.withFile i).inodes rootInode = s.inodes rootInode :=
    Function.update_of_ne hir.symm ..
  obtain ⟨b, hb⟩ : ∃ b, (s.inodes rootInode).iBlock.getLast? = some b := by
    have hne : (s.inodes rootInode).iBlock ≠ [] := by
      intro hnil
      have hn := h.length
      rw [hnil] at hn
      have := h.start hn.symm
      omega
    exact ⟨_, List.getLast?_eq_some_getLast hne⟩
  have hbytes := h.last b hb
  have hfit : (s.withFile i).blockBytes b + dentrySize + [c].length ≤ blockSize := by
    change s.blockBytes b + 8 + 1 ≤ 4096
    omega
  have hc := inodeCreate_file h.dir (h.entries_new hnew) hi
    (by rw [hb]; exact dentryCreate_old hfit)
  obtain ⟨hcharted, hlisting⟩ := h.made hm hc hstock.books.le
  refine ⟨i, b, _, hc, ⟨hlisting, ?_, rfl, Or.inl ⟨?_, List.mem_of_getLast? hb⟩,
    fun x hx => Function.update_of_ne hx .., fun e he => ?_, hfree,
    fun j hj _ => Function.update_of_ne hj ..⟩, hcharted, hstock, ?_, ?_, fun x hx => ?_, hk,
    fun hn => ?_⟩
  · simp only [withFile, Function.update_self]
    decide
  · rw [hroot]
  · simp only [Function.update_self, List.mem_append, List.mem_singleton] at he
    exact he.symm.imp_right fun he => ⟨List.mem_of_getLast? hb, he⟩
  · rw [hroot, h.length]
  · rw [hroot, h.blocks]
  · rw [hroot, hb, Option.some.injEq] at hx
    subst hx
    rw [blockBytes_append]
    change s.blockBytes b + 9 = 9 * (k + 1)
    omega
  · have := h.start hn
    omega

theorem create_new (hm : m ≤ 3) (hnew : [c] ∉ s.listed rootInode) (hk : k = 455)
    (hu : treeBlocks (n + 1) ≤ 32768 * 33) :
    ∃ i b s', s.inodeCreate (file c) sIfreg = some (.ok i, s') ∧ Made c i b s s' ∧
      Brim (n + 1) 1 (m + 1) s' ∧ Stock (treeBlocks n) (m + 1) (s.withFile i).groups ∧
      ((s.withFile i).groups.alloc .block).1.map Prod.fst = some b := by
  obtain ⟨i, hi, hir, hfree, hstock⟩ := h.allocInode hm
  have hroot : (s.withFile i).inodes rootInode = s.inodes rootInode :=
    Function.update_of_ne hir.symm ..
  have hstock' := allocBlock_stock (i := rootInode) hstock (by rw [hroot]; exact h.blocks) hu
  obtain ⟨b, g, ha, hout⟩ := allocBlock_spec rootInode hstock.books hstock'.books.le
  rw [ha] at hstock'
  have hfull : ∀ b, (s.inodes rootInode).iBlock.getLast? = some b →
      blockSize < (s.withFile i).blockBytes b + dentrySize + [c].length := by
    intro b hb
    have := h.last b hb
    change 4096 < s.blockBytes b + 8 + 1
    omega
  have hc := inodeCreate_file h.dir (h.entries_new hnew) hi (dentryCreate_new hfull (show 8 + 1 ≤
    4096 by decide) ha)
  obtain ⟨hcharted, hlisting⟩ := h.made hm hc hstock'.books.le
  have hlen := h.length
  have hblocks := h.blocks
  refine ⟨i, b, _, hc, ⟨hlisting, ?_, rfl, Or.inr ?_, fun x hx => ?_, fun e he => ?_, hfree,
    fun j hj hr => ?_⟩, ⟨hcharted, hstock', ?_, ?_, fun x hx => ?_, by decide,
    fun hn => absurd hn (Nat.succ_ne_zero n)⟩, hstock, ?_⟩
  · simp only [Function.update_of_ne hir, withFile, Function.update_self]
    decide
  · simp only [Function.update_self, addBlock_iBlock, hroot]
  · simp only [Function.update_of_ne hx]
    rfl
  · simp only [Function.update_self, List.mem_singleton] at he
    exact Or.inl he
  · simp only [Function.update_of_ne hr, withFile, Function.update_of_ne hj]
  · simp [hroot, hlen]
  · simp only [Function.update_self, addBlock, hroot]
    rw [hblocks]
    change u32 (8 * n + 8) = 8 * (n + 1)
    rw [u32_of_lt]
    · omega
    · have hle := treeBlocks_ge (n + 1)
      omega
  · simp only [Function.update_self, addBlock_iBlock, List.getLast?_append, List.getLast?_singleton,
      Option.some_or, Option.some.injEq] at hx
    subst hx
    simp [blockBytes, Dentry.make, dentrySize, u16]
  · have := congrArg Prod.fst ha
    unfold FS.allocBlock allocBlockFor at this
    rw [allocBlock_eq] at this
    cases hr : ((s.withFile i).groups.alloc .block).1 with
    | none => simp [hr] at this
    | some r =>
      simp only [hr, Option.map_some] at this ⊢
      split at this
      · cases this
      · exact this

end Brim

/-! ## One entry less -/

theorem recLen_weaker {l l' : List Dentry} (h : List.Forall₂ (Dentry.Weaker name) l l') :
    l'.map Dentry.recLen = l.map Dentry.recLen := by
  induction h with
  | nil => rfl
  | @cons e e' l l' hw _ ih =>
    rw [List.map_cons, List.map_cons, ih]
    rcases hw with rfl | ⟨-, rfl⟩ <;> rfl

namespace Orderly

variable (h : s.Orderly)
include h

theorem target_file {j : Nat} (hj : s.target (file c) = some j) :
    ([c], j) ∈ s.listing rootInode := by
  have hdir := (isDirectory_iff.mp h.linked.graph.root).2
  rw [target_eq (file_parent c) hdir (List.cons_ne_nil _ _)] at hj
  obtain ⟨b, hb, e, heb, hname, hei, -⟩ :=
    (killName_killed (List.cons_ne_nil c []) s rootInode).found j hj
  have he : e ∈ s.entries rootInode := List.mem_flatMap.mpr ⟨b, hb, heb⟩
  exact (h.tidy.mem_listing_iff h.tidy.root (List.cons_ne_nil c [])).mpr ⟨e, he, hname, hei⟩

variable (hin : ([c], i) ∈ s.listing rootInode) (hreg : isReg (s.inodes i).iMode = true)
include hin hreg

theorem target_empty :
    ∀ j, s.target (file c) = some j → s.isDirectory j = true → s.listing j = [] := by
  intro j hj hd
  cases h.listing_unique h.tidy.root hin (h.target_file hj)
  have := (isDirectory_iff.mp hd).2
  rw [not_isDir_of_isReg hreg] at this
  cases this

theorem unlink_some (hone : (s.inodes i).iLinksCount = 1) :
    ∃ r s', s.inodeUnlink 1 (file c) = some (r, s') := by
  have hdir := (isDirectory_iff.mp h.linked.graph.root).2
  obtain ⟨-, hia, hir⟩ := h.of_listing h.tidy.root hin
  have htarget : ∀ j, s.target (file c) = some j → _ := fun j => h.target_file
  have hroot : deref rootInode = rootInode := rfl
  rw [target_eq (file_parent c) hdir (List.cons_ne_nil _ _), hroot] at htarget
  have hvalid : (file c).1.valid = true := (file c).2.1
  have hnames : (file c).1.names.isEmpty = false := rfl
  unfold inodeUnlink killName
  simp only [hvalid, hnames, file_parent, hroot, hdir, Bool.not_true, Bool.false_eq_true, if_false]
  generalize s.visitInodeBlocks rootInode (killVisitor (file c).1.back) (s.dents, none) =
    st at htarget ⊢
  obtain ⟨dents, _ | j⟩ := st
  · exact ⟨_, _, rfl⟩
  · cases h.listing_unique h.tidy.root hin (htarget j rfl)
    have hzero : u16 ((s.inodes i).iLinksCount + 65535) = 0 := by rw [hone]; rfl
    have hfile : isDir (s.inodes i).iMode = false := not_isDir_of_isReg hreg
    simp only [dropLink, getInode_of_allocated h.books hia, hzero, if_true]
    set t : FS := setLinks i 0 ⟨s.groups, s.inodes, dents,
      s.dcache.drop (file c).1.parent.names (file c).1.back⟩ with ht
    have hmode : (t.inodes i).iMode = (s.inodes i).iMode := by rw [ht, setLinks_iMode]
    obtain ⟨g, hdel, -⟩ : ∃ g, t.inodeDelete 1 i t.groups = some (.success, g) ∧
      t.groups.free .inode i = some (true, g) := by
      refine inodeDelete_alone_some h.books hia hir (Or.inl (hmode ▸ hreg)) ?_ ?_
      · intro hd
        rw [hmode, hfile] at hd
        cases hd
      · intro _
        rw [ht, setLinks_iBlock]
        exact h.plain i hia hfile
    rw [hdel]
    exact ⟨_, _, rfl⟩

end Orderly

namespace Brim

theorem unlink (h : Brim n k (m + 1) s) (hin : ([c], i) ∈ s.listing rootInode)
    (hrec : isReg (s.inodes i).iMode = true ∧ (s.inodes i).iLinksCount = 1) :
    ∃ r s', s.inodeUnlink 1 (file c) = some (r, s') ∧ Unlinked s.dcache [] rootInode [c] i s s' ∧
      Brim n k m s' := by
  have hord := h.charted.order
  obtain ⟨r, s', hu⟩ := hord.unlink_some hin hrec.1 hrec.2
  have hempty := hord.target_empty hin hrec.1
  have hcharted := h.charted.unlinked hempty hu
  rcases hord.unlink_cases hempty hu with ⟨c', -, rfl, -⟩ | ⟨parent, c', j, hlook, -, -, hun⟩
  · -- the name cannot have been overlooked
    have hrem := (hord.tidy.unlinked hu).2.removed rootInode (by rw [file_parent])
      hord.linked.graph.root
    change s.listing rootInode = _ at hrem
    rw [hrem] at hin
    have := (List.mem_filter.mp hin).2
    simp [Path.back, file, Path.of] at this
  · rw [file_parent, Prod.mk.injEq, Except.ok.injEq] at hlook
    obtain ⟨rfl, hs⟩ := hlook
    obtain rfl : s.dcache = c' := congrArg FS.dcache hs
    cases hord.listing_unique hord.tidy.root hin hun.listed
    obtain ⟨-, hia, hir⟩ := hord.of_listing hord.tidy.root hin
    have hroot : s'.inodes rootInode = s.inodes rootInode := by
      rw [hun.inodes, setLinks]
      exact Function.update_of_ne hir.symm ..
    have hfree := hun.groups
    rw [if_pos hrec.2] at hfree
    refine ⟨r, s', hu, hun, hcharted, h.stock.freeInode hia hfree, ?_, ?_, fun b hb => ?_,
      h.le, h.start⟩
    · rw [hroot, h.length]
    · rw [hroot, h.blocks]
    · rw [hroot] at hb
      rw [← h.last b hb, blockBytes, recLen_weaker (hun.weaker b)]
      rfl

end Brim

/-! ## Filling the disk -/

/-- The blocks of the root directory in `B` have no entry `/c`. -/
def Clear (B : Nat → Prop) (c : UInt8) (s : FS) : Prop :=
  ∀ b ∈ (s.inodes rootInode).iBlock, B b → ∀ e ∈ s.dents b, e.hasName [c] = false

/-- No block but `home` has an entry `/y`. -/
def OnlyIn (home : Nat) (s : FS) : Prop := Clear (fun b => b ≠ home) 121 s

theorem Made.clear {B : Nat → Prop} {a : Nat} (hc : c ≠ 120) (h : Made 120 a b s s')
    (ho : Clear B c s) : Clear B c s' := by
  intro x hx hB e he
  by_cases hxb : x = b
  · subst hxb
    rcases h.content e he with rfl | ⟨hb, he⟩
    · simp [Dentry.hasName, Dentry.make, hc.symm]
    · exact ho x hb hB e he
  · rw [h.others x hxb] at he
    exact ho x ((h.mem_blocks hx).resolve_left hxb) hB e he

theorem Unlinked.clear {B : Nat → Prop} {C : DentryCache} {P : List Name} {p : Nat}
    (h : Unlinked C P p name i s s') (ho : Clear B c s) : Clear B c s' := by
  intro x hx hB e he
  have hblocks : (s'.inodes rootInode).iBlock = (s.inodes rootInode).iBlock := by
    rw [h.inodes, setLinks_iBlock]
  rw [hblocks] at hx
  rw [Bool.eq_false_iff]
  intro hn
  have hlive := Dentry.live_of_hasName (List.cons_ne_nil c []) hn
  have := ho x hx hB e (Dentry.mem_of_weaker (h.weaker x) he hlive)
  rw [hn] at this
  cases this

/-- The root directory lists `L`, and `/x` is not in it. -/
structure Level (n k : Nat) (L : List (Name × Nat)) (s : FS) : Prop where
  brim : Brim n k (L.length + 1) s
  listing : s.listing rootInode = L
  absent : [120] ∉ L.map Prod.fst

/-- A call as runs of names make them. -/
def OrdinaryCall (s : FS) (op : DirOp) : Prop := s.Ordinary (.call op)

structure Grown (s s' : FS) : Prop where
  leads : Runs.Leads (dirStep 1) OrdinaryCall s s'
  only : ∀ B c, c ≠ 120 → Clear B c s → Clear B c s'
  cached : ∀ q, ¬ [[120]] <+: q → s'.dcache q = s.dcache q
  blocks : (s.inodes rootInode).iBlock <+: (s'.inodes rootInode).iBlock
  files : ∀ e ∈ s.listing rootInode, e ∈ s'.listing rootInode ∧ s'.inodes e.2 = s.inodes e.2

theorem Grown.refl (s : FS) : Grown s s :=
  ⟨Runs.Leads.refl s, fun _ _ _ h => h, fun _ _ => rfl, List.prefix_rfl, fun _ he => ⟨he, rfl⟩⟩

theorem Grown.trans (h : Grown s s') (h' : Grown s' t) : Grown s t := by
  refine ⟨h.leads.trans h'.leads, fun B c hc ho => h'.only B c hc (h.only B c hc ho),
    fun q hq => (h'.cached q hq).trans (h.cached q hq), h.blocks.trans h'.blocks, fun e he => ?_⟩
  obtain ⟨he', hr⟩ := h.files e he
  obtain ⟨he'', hr'⟩ := h'.files e he'
  exact ⟨he'', hr'.trans hr⟩

theorem Brim.leads_create (h : Brim n k m s) (hm : m ≤ 3)
    (hc : s.inodeCreate (file c) sIfreg = some (.ok i, s')) :
    Runs.Leads (dirStep 1) OrdinaryCall s s' := by
  refine Runs.Leads.single (i := .create (file c) sIfreg) ?_ ⟨Or.inl rfl, h.stock.hasFree_inode hm⟩
  rw [dirStep, hc]
  rfl

namespace Level

variable {L : List (Name × Nat)} (h : Level n k L s) (hL : L.length ≤ 2)
include h hL

theorem cycle (hu : k = 455 → treeBlocks (n + 1) ≤ 32768 * 33) :
    ∃ s', Grown s s' ∧ Level (if k < 455 then n else n + 1) (if k < 455 then k + 1 else 1)
      L s' := by
  have hnew : [120] ∉ s.listed rootInode := by
    rw [listed, h.listing]
    exact h.absent
  have hle := h.brim.le
  obtain ⟨i, b, t, hc, hmade, hbrim⟩ : ∃ i b t, s.inodeCreate (file 120) sIfreg = some (.ok i, t) ∧
    Made 120 i b s t ∧
      Brim (if k < 455 then n else n + 1) (if k < 455 then k + 1 else 1) (L.length + 1 + 1) t := by
    by_cases hk : k < 455
    · rw [if_pos hk, if_pos hk]
      exact h.brim.create_old (by omega) hnew hk
    · rw [if_neg hk, if_neg hk]
      obtain ⟨i, b, t, hc, hmade, hbrim, -⟩ :=
        h.brim.create_new (by omega) hnew (by omega) (hu (by omega))
      exact ⟨i, b, t, hc, hmade, hbrim⟩
  have hin : ([120], i) ∈ t.listing rootInode := by
    rw [hmade.listing]
    exact List.mem_append_right _ List.mem_cons_self
  obtain ⟨r, s', hd, hun, hbrim'⟩ := hbrim.unlink hin hmade.record
  have hfirst := h.brim.leads_create (by omega) hc
  have hsecond : Runs.Leads (dirStep 1) OrdinaryCall t s' := by
    refine Runs.Leads.single (i := .unlink (file 120))
      ?_ (hbrim.charted.order.target_empty hin hmade.record.1)
    rw [dirStep, hd]
    rfl
  have hlisting : s'.listing rootInode = L := by
    rw [hun.removed, hmade.listing, h.listing, List.filter_append, List.filter_eq_self.mpr,
      List.filter_cons_of_neg (by simp), List.filter_nil, List.append_nil]
    intro e he
    have hne : e.1 ≠ [120] := fun hc => h.absent (hc ▸ List.mem_map_of_mem he)
    simpa using hne
  refine ⟨s', ⟨hfirst.trans hsecond, fun B c hc ho => hun.clear (hmade.clear hc ho), fun q hq => ?_,
    hmade.grows.trans (by rw [hun.inodes, setLinks_iBlock]), fun e he => ?_⟩, hbrim', hlisting,
    h.absent⟩
  · rw [hun.dcache, DentryCache.drop_map, NodeMap.remove, List.nil_append, if_neg hq, hmade.dcache]
  · obtain ⟨-, hea, her⟩ :=
      h.brim.charted.order.of_listing h.brim.charted.order.tidy.root (show (e.1, e.2) ∈ _ from he)
    have hei : e.2 ≠ i := by
      intro hc
      rw [hc, hmade.fresh] at hea
      cases hea
    refine ⟨by rw [hlisting, ← h.listing]; exact he, ?_⟩
    rw [hun.inodes, setLinks]
    exact (Function.update_of_ne hei ..).trans (hmade.records e.2 hei her)

theorem fill (d : Nat) (hd : k + d = 455) : ∃ s', Grown s s' ∧ Level n 455 L s' := by
  induction d generalizing k s with
  | zero =>
    obtain rfl : k = 455 := hd
    exact ⟨s, Grown.refl s, h⟩
  | succ d ih =>
    have hk : k < 455 := by omega
    obtain ⟨t, hgrown, hlevel⟩ := h.cycle hL (fun hk' => by omega)
    rw [if_pos hk, if_pos hk] at hlevel
    obtain ⟨s', hgrown', hlevel'⟩ := ih hlevel (by omega)
    exact ⟨s', hgrown.trans hgrown', hlevel'⟩

theorem advance (d : Nat) (hu : treeBlocks (n + d) ≤ 32768 * 33) :
    ∃ s', Grown s s' ∧ Level (n + d) 455 L s' := by
  induction d with
  | zero =>
    have hle := h.brim.le
    exact h.fill hL (455 - k) (by omega)
  | succ d ih =>
    have hu' := hu
    rw [← Nat.add_assoc, treeBlocks_succ] at hu'
    obtain ⟨t, hgrown, hlevel⟩ := ih (by omega)
    obtain ⟨u, hgrown', hlevel'⟩ := hlevel.cycle hL fun _ => hu
    rw [if_neg (by decide), if_neg (by decide)] at hlevel'
    obtain ⟨s', hgrown'', hlevel''⟩ := hlevel'.fill hL 454 rfl
    exact ⟨s', (hgrown.trans hgrown').trans hgrown'', hlevel''⟩

end Level

theorem Level.format : Level 0 455 [] FS.format where
  brim := {
    charted := Charted.format
    stock := by
      rw [treeBlocks_zero]
      exact ⟨Books.format, format_count.1, format_count.2, Or.inl rfl⟩
    length := by rw [format_iBlock]; rfl
    blocks := rfl
    last b hb := by
      rw [format_iBlock] at hb
      cases hb
    le := Nat.le_refl _
    start _ := rfl }
  listing := format_listing rootInode
  absent := List.not_mem_nil

/-! ## The block that is used twice -/

/-- The first block of group 32. -/
def home : Nat := u32 (32 * perGroup .block)

theorem alloc_home {g : Groups} (h : Stock (32768 * 32) m g) :
    (g.alloc .block).1 = some (home, false) := by
  obtain ⟨hled, hfull⟩ := h.full rfl (by decide)
  rw [hled.alloc_full hfull, hled.newIndex (Nat.le_refl 32) hfull]
  rfl

/-- And once more when 33 groups are full. -/
theorem alloc_home_again {g : Groups} (h : Stock (32768 * 33) m g) (hm : m ≤ 32768) :
    (g.alloc .block).1 = some (home, false) := by
  obtain ⟨hled, hfull⟩ := h.full rfl (by decide)
  have hagain : g.counted.super.numBlockGroups = 32 :=
    hled.index_again hfull (by rw [h.inodes]; exact hm)
  rw [hled.alloc_full hfull]
  exact congrArg (fun g => some (u32 (g * perGroup .block), false)) hagain

theorem allocBlock_home (hb : (s.groups.alloc .block).1 = some (home, false))
    (hi : indirectsFor (numAlignedBlocks (s.inodes i).iBlocks) = 0) :
    s.allocBlock i = (some home, { s with
      groups := (s.groups.alloc .block).2
      inodes := Function.update s.inodes i (addBlock (s.inodes i) home)
      dents := Function.update s.dents home [] }) := by
  unfold allocBlock allocBlockFor
  rw [hi, allocBlock_eq, hb]
  rfl

theorem treeBlocks_32_succ : treeBlocks (1047552 + 1) = 32768 * 32 + 1 := by
  rw [treeBlocks_succ, treeBlocks_32, show indirectsFor 1047552 = 0 by decide]

/-- The root directory grows until 32 groups are full; then `/y` is created in the
first block of the next one. -/
theorem exists_home :
    ∃ j s, Runs.Leads (dirStep 1) OrdinaryCall FS.format s ∧ Level 1047553 1 [([121], j)] s ∧
      OnlyIn home s := by
  obtain ⟨u, hgrown, hu⟩ :=
    Level.format.advance (Nat.zero_le 2) 1047552 (by rw [Nat.zero_add, treeBlocks_32]; decide)
  rw [Nat.zero_add] at hu
  have hnew : [121] ∉ u.listed rootInode := by
    rw [listed, hu.listing]
    exact List.not_mem_nil
  obtain ⟨j, b, t, hc, hmade, hbrim, hstock, hb⟩ :=
    hu.brim.create_new (show 0 + 1 ≤ 3 by decide) hnew rfl (by rw [treeBlocks_32_succ]; decide)
  rw [treeBlocks_32] at hstock
  have hhome : b = home := by
    rw [alloc_home hstock] at hb
    exact (Option.some.inj hb).symm
  subst hhome
  refine ⟨j, t, hgrown.leads.trans (hu.brim.leads_create (show 0 + 1 ≤ 3 by decide) hc),
    ⟨hbrim, by rw [hmade.listing, hu.listing]; rfl, by simp⟩, fun x hx hne e he => ?_⟩
  rw [hmade.others x hne] at he
  exact hu.brim.entries_new hnew e (List.mem_flatMap.mpr ⟨x, (hmade.mem_blocks hx).resolve_left hne,
    he⟩)

theorem mem_wiped {bs : List Nat} {dents : Nat → List Dentry} {x e : Dentry} (hb : b ∈ bs ++ [home])
    (he : e ∈ Function.update dents home [x] b) : e = x ∨ b ∈ bs ∧ b ≠ home ∧ e ∈ dents b := by
  by_cases hbh : b = home
  · subst hbh
    rw [Function.update_self, List.mem_singleton] at he
    exact Or.inl he
  · rw [Function.update_of_ne hbh] at he
    rw [List.mem_append, List.mem_singleton] at hb
    exact Or.inr ⟨hb.resolve_right hbh, hbh, he⟩

/-- The next `/x`, when all 33 groups are full, wipes the block of `/y`. -/
theorem Level.wiped {j : Nat} (h : Level 1080286 455 [([121], j)] s) (ho : OnlyIn home s) :
    ∃ i s', s.inodeCreate (file 120) sIfreg = some (.ok i, s') ∧ ∀ e ∈ s'.entries rootInode,
      e.Whole ∧ e.hasName [121] = false := by
  have hord := h.brim.charted.order
  have hnew : [120] ∉ s.listed rootInode := by
    rw [listed, h.listing]
    exact h.absent
  obtain ⟨i, hi, hir, -, hstock⟩ := h.brim.allocInode (show 1 + 1 ≤ 3 by decide)
  rw [treeBlocks_33] at hstock
  have hroot : (s.withFile i).inodes rootInode = s.inodes rootInode :=
    Function.update_of_ne hir.symm ..
  have ha := allocBlock_home (i := rootInode) (alloc_home_again hstock (show 1 + 1 + 1 ≤
    32768 by decide))
    (by rw [hroot, h.brim.blocks]; decide)
  rw [hroot] at ha
  have hlast : ∀ b, (s.inodes rootInode).iBlock.getLast? = some b →
      blockSize < (s.withFile i).blockBytes b + dentrySize + [(120 : UInt8)].length := by
    intro b hb
    have := h.brim.last b hb
    change 4096 < s.blockBytes b + 8 + 1
    omega
  have hc := inodeCreate_file h.brim.dir (h.brim.entries_new hnew) hi
    (dentryCreate_new hlast (show 8 + 1 ≤ 4096 by decide) ha)
  refine ⟨i, _, hc, fun e he => ?_⟩
  obtain ⟨b, hb, he⟩ := List.mem_flatMap.mp he
  simp only [Function.update_self, Function.update_idem, addBlock_iBlock] at hb he
  rcases mem_wiped hb he with rfl | ⟨hold, hbh, he⟩
  · exact ⟨Dentry.make_whole .., by simp [Dentry.hasName, Dentry.make]⟩
  · exact ⟨hord.tidy.whole rootInode hord.tidy.root e (List.mem_flatMap.mpr ⟨b, hold, he⟩),
      ho b hold hbh e he⟩

/-- The disk is filled with entries of the root directory; then a new file wipes
the block of `/y`, which was listed and no longer is. -/
theorem entry_wiped_by_create :
    ∃ ops s i s', Runs.run (dirStep 1) ops FS.format = some s ∧ s.inodeCreate (file 120) sIfreg =
      some (.ok i, s') ∧ [121] ∈ s.listed rootInode ∧ [121] ∉ s'.listed rootInode ∧
      ¬ ActsAsMap 1 s (.create (file 120) sIfreg) := by
  obtain ⟨j, s₁, hleads, hlevel, ho⟩ := exists_home
  obtain ⟨s, hgrown, hs⟩ := hlevel.advance (Nat.le_succ 1) 32733 (Nat.le_of_eq treeBlocks_33)
  obtain ⟨i, s', hc, hwiped⟩ := Level.wiped hs (hgrown.only _ 121 (by decide) ho)
  obtain ⟨ops, hrun, -⟩ := hleads.trans hgrown.leads
  have hlisted : [121] ∈ s.listed rootInode := by
    rw [listed, hs.listing]
    exact List.mem_cons_self
  have hgone : [121] ∉ s'.listed rootInode := by
    intro hin
    obtain ⟨⟨name, k⟩, hin, hname⟩ := List.mem_map.mp hin
    obtain ⟨e, he, hl, ht, -⟩ := mem_listing.mp hin
    obtain ⟨hw, hn⟩ := hwiped e he
    rw [(hw.hasName_iff [121]).mpr (ht.trans hname)] at hn
    cases hn
  refine ⟨ops, s, i, s', hrun, hc, hlisted, hgone, fun hmap => ?_⟩
  obtain ⟨p, hp, -, -, hl, -⟩ := (hmap _ _ hc).added i rfl
  rw [file_parent] at hp
  cases hp
  change s'.listing rootInode = s.listing rootInode ++ _ at hl
  refine hgone ?_
  rw [listed, hl, List.map_append]
  exact List.mem_append_left _ hlisted

theorem lookup_uncached (hnone : s.dcache [[c]] = none) :
    s.inodeLookup (file c) = match s.search rootInode [c] with
      | none => (.error .notFound, { s with dcache := s.dcache.enter [] [c] })
      | some i => (.ok i, { s with dcache := (s.dcache.enter [] [c]).insert [] [c] i }) := by
  have hmiss : s.dcache.lookup [] [c] = none := hnone
  have hvalid : (file c).1.valid = true := (file c).2.1
  have hnames : (file c).1.names = [[c]] := rfl
  cases hf : s.search rootInode [c] <;> simp [inodeLookup, hvalid, hnames, lookupFrom, hmiss, hf]

theorem lookup_hit (hhit : s.dcache [[c]] = some i) (hi : (s.groups.getInode i).isSome) :
    s.inodeLookup (file c) = (.ok i, { s with dcache := s.dcache.enter [] [c] }) := by
  have hhit : s.dcache.lookup [] [c] = some i := hhit
  have hvalid : (file c).1.valid = true := (file c).2.1
  have hnames : (file c).1.names = [[c]] := rfl
  have hthere : (s.groups.getInode i).isNone = false := by
    rw [← Option.not_isSome, hi]
    rfl
  simp [inodeLookup, hvalid, hnames, lookupFrom, hhit, hthere]

end FS

end NaiveFS
