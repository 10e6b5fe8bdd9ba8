import Potatoes.Fs.Theorems.Histories

-- Listing a directory with the host tool chips (chips_ls, chips_readdir).

namespace Chips

open Fs

section Model

variable [HardDisk]

-- The entries of a block that is listed: the loop ends at the first one without an inode.
def entries (dir : Block) (count : Nat) : List (Fin 16) :=
  (List.finRange 16).takeWhile fun i => i.val < count / 32 ∧ entryInode dir i ≠ 0

-- A name that is not terminated within its entry goes on with the following entries.
def entryString (dir : Block) (i : Fin 16) : Option Path :=
  let chars := dir.slice (32 * i.val + 4) (508 - 32 * i.val)
  if 0 ∈ chars then some (chars.takeWhile (· ≠ 0)) else none

def printEntries (dir : Block) : List (Fin 16) → FsM (List Path)
  | []      => return []
  | i :: is =>
    match entryString dir i with
    | none      => .fail .stringBounds
    | some name => do
      let names ← printEntries dir is
      return name :: names

-- The loop over the blocks of a directory.
def listEntries (fd : Int) : Nat → Nat → FsM (List Path)
  | 0,     _   => .fail .diverges
  | n + 1, pos => do
    let bytes ← doRead fd 512 pos
    if bytes.length = 0 then
      return []
    else
      let dir := .ofFn fun j => bytes.getD j 0
      let names ← printEntries dir <| entries dir bytes.length
      let rest ← listEntries fd n (pos + bytes.length)
      return names ++ rest

-- The name in a `file_info_t` as it is printed. It is not terminated if it has 28 characters or more, and the mode
-- follows it.
def infoName (fd : Int) (info : FileInfo) : FsM Path := do
  let i ← derefFile fd
  match ← .gets (·.gft i |>.fName) with
  | none      => .fail .nullDeref
  | some name =>
    if name.chars.length < 28 then
      return name.chars
    else
      return name.chars.take 28 ++ [Byte.ofWord info.mode 0, Byte.ofWord info.mode 1].takeWhile (· ≠ 0)

-- The value that is returned, and the names that are reported. A file that is no directory stays open.
def listDir (path : Path) (failed : Int) (other : Int → FileInfo → FsM (Int × List Path)) : FsM (Int × List Path) := do
  let fd ← doOpen path
  if fd < 0 then
    return (failed, [])
  else
    let info ← getFileInfo fd
    if info.mode ≠ directory then
      other fd info
    else
      let names ← listEntries fd maxBlocks 0
      let _ ← doClose fd
      return (0, names)

def chipsLs (arg : Option Path) : FsM (Int × List Path) :=
  listDir (arg.getD [delim]) (-1) fun fd info => do
    let name ← infoName fd info
    return (0, [name])

abbrev enoent : Int := 2

def chipsReaddir (path : Path) : FsM (Int × List Path) :=
  listDir path (-enoent) fun _ _ => return (-enoent, [])

-- Each entry that is in use is reported exactly once, and nothing else is.
def ListsExactly (s : Fs.State) (o : Obj) (call : FsM (Int × List Path)) : Prop :=
  ∃ names s', call.run s = (.ok (0, names), s') ∧ ∃ slots : List (Nat × Fin 16), slots.Nodup ∧
    (∀ k i, (k, i) ∈ slots ↔ ∃ p x, o.Live k i p x) ∧ names = slots.map fun e => nameOf ((o.block e.1).getD .zero) e.2

end Model

section Entries

-- An element of an ordered list is taken if no element up to it stops the list.
theorem mem_takeWhile {α : Type} [LinearOrder α] {l : List α} {p : α → Bool} {x : α} (h : l.Pairwise (· < ·)) :
    x ∈ l.takeWhile p ↔ x ∈ l ∧ ∀ y ∈ l, y ≤ x → p y = true := by
  induction l
  case nil => simp
  case cons a l hi =>
    have ⟨ha, hl⟩ := List.pairwise_cons.mp h
    cases hp : p a with
    | true =>
      rw [List.takeWhile_cons_of_pos hp, List.mem_cons, List.mem_cons, hi hl]
      constructor
      case mp =>
        rintro (rfl | ⟨hx, hy⟩)
        · refine ⟨.inl rfl, fun y hy hle => ?_⟩
          rcases List.mem_cons.mp hy with rfl | hy
          · exact hp
          · exact absurd (ha y hy) (not_lt.mpr hle)
        · refine ⟨.inr hx, fun y hy' hle => ?_⟩
          rcases List.mem_cons.mp hy' with rfl | hy'
          · exact hp
          · exact hy y hy' hle
      case mpr => exact fun ⟨hx, hy⟩ => hx.imp_right fun hx => ⟨hx, fun y hy' => hy y <| .tail _ hy'⟩
    | false =>
      rw [List.takeWhile_cons_of_neg (by simp [hp])]
      refine iff_of_false List.not_mem_nil fun ⟨hx, hy⟩ => ?_
      have hle : a ≤ x := by
        rcases List.mem_cons.mp hx with rfl | hx
        · exact le_rfl
        · exact (ha x hx).le
      exact nomatch hp.symm.trans <| hy a (.head _) hle

variable {dir : Block} {i : Fin 16} {o : Obj} {k : Nat}

theorem mem_entries : i ∈ entries dir 512 ↔ ∀ j ≤ i, entryInode dir j ≠ 0 := by
  rw [entries, mem_takeWhile (List.pairwise_lt_finRange 16)]
  have hlt (j : Fin 16) : j.val < 512 / 32 := j.isLt
  simp [hlt]

theorem entries_nodup {count : Nat} : (entries dir count).Nodup :=
  (List.nodup_finRange 16).sublist <| List.takeWhile_sublist _

-- A terminated name is printed up to its terminator.
theorem entryString_eq (h : (nameOf dir i).length ≤ 27) : entryString dir i = some (nameOf dir i) := by
  have hs : dir.slice (32 * i.val + 4) (508 - 32 * i.val) =
      (List.range 28).map (entryName dir i) ++ (List.range (480 - 32 * i.val)).map fun j => entryName dir i (28 + j) := by
    have : 508 - 32 * i.val = 28 + (480 - 32 * i.val) := by omega
    rw [Block.slice, this, List.range_add, List.map_append, List.map_map]
    rfl
  have hne : ((List.range 28).map (entryName dir i)).takeWhile (· ≠ 0) ≠ (List.range 28).map (entryName dir i) := by
    intro he
    have hl := congrArg List.length he
    rw [List.length_map, List.length_range] at hl
    exact absurd (hl ▸ h : 28 ≤ 27) (by decide)
  have h₀ : (0 : Byte) ∈ (List.range 28).map (entryName dir i) := by
    by_contra h₀
    exact hne <| List.takeWhile_eq_self_iff.mpr fun c hc =>
      decide_eq_true fun (he : c = 0) => h₀ (he ▸ hc)
  rw [entryString, hs, if_pos (List.mem_append_left _ h₀), List.takeWhile_append, if_neg]
  · rfl
  · exact fun hl => hne <| (List.takeWhile_prefix _).eq_of_length hl

theorem wp_printEntries [HardDisk] {s : Fs.State} {Q : List Path → Fs.State → Prop} {E : Fault → Fs.State → Prop}
    {is : List (Fin 16)} (h : DirBlockOk dir) (hQ : Q (is.map (nameOf dir)) s) : (printEntries dir is).wp Q E s := by
  induction is generalizing Q
  case nil           => exact hQ
  case cons i is hi  =>
    rw [printEntries, entryString_eq (h i).left]
    simp only []
    rw [Prog.wp_bind]
    exact hi hQ

-- What is read of a directory at the start of a block.
theorem read_block : o.read 512 (512 * k) = if o.size < 512 * k then [] else ((o.block k).map (·.slice 0 512)).getD [] := by
  have hdiv : 512 * k / 512 = k := Nat.mul_div_cancel_left k (by decide)
  have hmod : 512 * k % 512 = 0 := Nat.mul_mod_right ..
  split
  case isTrue h  => exact Obj.read_nil (.inl h)
  case isFalse h =>
    cases hb : o.block k with
    | none   => exact Obj.read_missing (by rw [hdiv, hb])
    | some c =>
      rw [Obj.read_within (by omega) (by rw [hdiv, hb]) (by omega), hmod, Option.map_some, Option.getD_some]

theorem ofFn_slice (c : Block) : Block.ofFn (fun j => (c.slice 0 512).getD j 0) = c := by
  refine Block.ext_get fun j hj => ?_
  have hl : j < (c.slice 0 512).length := (c.length_slice 512).symm ▸ hj
  rw [Block.get_ofFn hj, List.getD_eq_getElem _ _ hl, Block.getElem_slice, Nat.zero_add]

-- The entry is in front of the first free one of a block that is read.
def Shown (o : Obj) (k : Nat) (i : Fin 16) : Prop :=
  o.Visible k ∧ ∃ c, o.block k = some c ∧ ∀ j ≤ i, entryInode c j ≠ 0

-- The names are those of the entries that are shown from the block `k` on, each of them once.
def Reports (o : Obj) (k : Nat) (names : List Path) : Prop :=
  ∃ slots : List (Nat × Fin 16), slots.Nodup ∧ (∀ k' i, (k', i) ∈ slots ↔ k ≤ k' ∧ Shown o k' i) ∧
    names = slots.map fun e => nameOf ((o.block e.1).getD .zero) e.2

-- The end of the directory.
theorem Reports.nil (h : ¬(512 * k ≤ o.size ∧ o.block k ≠ none)) : Reports o k [] :=
  ⟨[], .nil, fun _ _ => iff_of_false List.not_mem_nil fun ⟨hk, hs, _⟩ => h <| hs k hk, rfl⟩

theorem Reports.cons {c : Block} {names : List Path} (hv : o.Visible k) (hc : o.block k = some c)
    (h : Reports o (k + 1) names) : Reports o k ((entries c 512).map (nameOf c) ++ names) := by
  obtain ⟨slots, hn, hm, rfl⟩ := h
  refine ⟨(entries c 512).map (k, ·) ++ slots, ?_, fun k' i => ?_, ?_⟩
  case refine_1 =>
    refine List.nodup_append.mpr ⟨entries_nodup.map fun _ _ h => (Prod.mk.inj h).right, hn, ?_⟩
    rintro _ hx ⟨k', i⟩ hy rfl
    have ⟨_, _, he⟩ := List.mem_map.mp hx
    have := ((hm k' i).mp hy).left
    have := (Prod.mk.inj he).left
    omega
  case refine_2 =>
    have hk : (k', i) ∈ (entries c 512).map (k, ·) ↔ k' = k ∧ Shown o k' i := by
      rw [List.mem_map]
      constructor
      case mp =>
        rintro ⟨_, hi, he⟩
        cases he
        exact ⟨rfl, hv, c, hc, mem_entries.mp hi⟩
      case mpr =>
        rintro ⟨rfl, _, d, hd, hi⟩
        cases hc.symm.trans hd
        exact ⟨i, mem_entries.mpr hi, rfl⟩
    rw [List.mem_append, hk, hm, ←or_and_right]
    refine and_congr_left fun _ => ?_
    omega
  case refine_3 =>
    rw [List.map_append, List.map_map]
    refine congrArg (· ++ _) <| List.map_congr_left fun i _ => ?_
    simp only [Function.comp_apply, hc, Option.getD_some]

end Entries

section Loop

variable [HardDisk] [Formattable] {disk₀ : Nat → Block} {s s' : Fs.State} {L : Set Nat} {path : Nat → List Name}
variable {ns : List Name} {i : Fin 10} {E : Fault → Fs.State → Prop}

omit [Formattable] in
theorem StillOpen.trans {s'' : Fs.State} (h : StillOpen disk₀ L path i ns s s') (h' : StillOpen disk₀ L path i ns s' s'') :
    StillOpen disk₀ L path i ns s s'' :=
  ⟨h'.ready, h'.opened, h'.gft.trans h.gft, h'.fileObj.trans h.fileObj⟩

theorem wp_listEntries {Q : List Path → Fs.State → Prop} (r : Ready disk₀ s L path) (op : Open s L path i ns)
    (hm : (s.gft i).fMode = directory) (hok : ∀ k c, (s.fileObj i).block k = some c → DirBlockOk c)
    (hQ : ∀ names s', StillOpen disk₀ L path i ns s s' → Reports (s.fileObj i) 0 names → Q names s') :
    (listEntries i maxBlocks 0).wp Q E s := by
  suffices ∀ n k s₁ Q, 16542 < n + k → k ≤ 16542 → StillOpen disk₀ L path i ns s s₁ →
      (∀ j < k, 512 * j ≤ (s.fileObj i).size ∧ (s.fileObj i).block j ≠ none) →
      (∀ names s', StillOpen disk₀ L path i ns s s' → Reports (s.fileObj i) k names → Q names s') →
      (listEntries i n (512 * k)).wp Q E s₁ from
    this maxBlocks 0 s Q (by decide) (by decide) ⟨r, op, rfl, rfl⟩ (fun j hj => absurd hj j.not_lt_zero) hQ
  intro n
  induction n
  case zero => omega
  case succ n hi =>
    intro k s₁ Q hn hk so hv hQ
    have hc : s₁.content i 512 (512 * k) = (s.fileObj i).read 512 (512 * k) := by
      rw [State.content, so.gft, if_pos hm, so.fileObj]
    rw [listEntries, Prog.wp_bind]
    refine wp_doRead so.ready so.opened fun s₂ so₂ => ?_
    have so₂ := StillOpen.trans so so₂
    rw [hc, read_block]
    by_cases hb : 512 * k ≤ (s.fileObj i).size ∧ (s.fileObj i).block k ≠ none
    case neg =>
      have hread : (if (s.fileObj i).size < 512 * k then [] else
          (((s.fileObj i).block k).map (·.slice 0 512)).getD []) = [] := by
        split
        case isTrue    => rfl
        case isFalse h =>
          have := not_not.mp <| (not_and.mp hb) (Nat.le_of_not_lt h)
          rw [this, Option.map_none, Option.getD_none]
      rw [hread, if_pos List.length_nil]
      exact hQ [] s₂ so₂ <| .nil hb
    case pos =>
      have hs := hb.left
      have hne := hb.right
      obtain ⟨c, hc⟩ := Option.ne_none_iff_exists'.mp hne
      have hlt : k < 16542 := by
        by_contra hge
        exact hne <| s.fileObj_block i k <| Nat.le_of_not_lt hge
      have hvis : (s.fileObj i).Visible k := by
        intro j hj
        rcases Nat.lt_or_eq_of_le hj with hj | rfl
        · exact hv j hj
        · exact hb
      rw [if_neg (Nat.not_lt.mpr hs), hc, Option.map_some, Option.getD_some, Block.length_slice, if_neg (by decide),
        ofFn_slice, Prog.wp_bind]
      refine wp_printEntries (hok k c hc) ?_
      rw [Prog.wp_bind]
      refine hi (k + 1) s₂ _ (by omega) hlt so₂ (fun j hj => hvis j <| Nat.le_of_lt_succ hj) fun names s₃ so₃ h => ?_
      exact hQ _ s₃ so₃ <| h.cons hvis hc

end Loop

section Listing

-- No entry in use lies behind a free one in its block.
def Compact (o : Obj) : Prop :=
  ∀ k i p x, o.Live k i p x → ∀ j ≤ i, ∃ q y, o.Live k j q y

variable {o : Obj}

theorem live_iff {k : Nat} {i : Fin 16} : (∃ p x, o.Live k i p x) ↔ ∃ c, o.block k = some c ∧ nameOf c i ≠ [] := by
  constructor
  case mp  => exact fun ⟨_, _, c, hc, hn, hne, _⟩ => ⟨c, hc, hn ▸ hne⟩
  case mpr => exact fun ⟨c, hc, hne⟩ => ⟨_, _, c, hc, rfl, hne, rfl⟩

-- All entries in use are reported if and only if none of them is hidden behind a free one.
theorem Reports.exactly_iff {names : List Path} (h : Reports o 0 names)
    (hvis : ∀ k i p x, o.Live k i p x → o.Visible k)
    (hfree : ∀ k c i, o.block k = some c → (entryInode c i ≠ 0 ↔ nameOf c i ≠ [])) :
    (∃ slots : List (Nat × Fin 16), slots.Nodup ∧ (∀ k i, (k, i) ∈ slots ↔ ∃ p x, o.Live k i p x) ∧
      names = slots.map fun e => nameOf ((o.block e.1).getD .zero) e.2) ↔ Compact o := by
  obtain ⟨slots, hn, hm, rfl⟩ := h
  have hm (k i) : (k, i) ∈ slots ↔ Shown o k i := (hm k i).trans <| and_iff_right (Nat.zero_le k)
  have hshown {k i} (h : Shown o k i) : ∀ j ≤ i, ∃ p x, o.Live k j p x :=
    have ⟨_, c, hc, h⟩ := h
    fun j hj => live_iff.mpr ⟨c, hc, (hfree k c j hc).mp <| h j hj⟩
  constructor
  case mp =>
    rintro ⟨slots', _, hm', he⟩ k i p x hl
    have hsub : slots ⊆ slots' := fun ⟨k, i⟩ hs => (hm' k i).mpr <| hshown ((hm k i).mp hs) i le_rfl
    have hlen : slots'.length ≤ slots.length := by
      have := congrArg List.length he
      rw [List.length_map, List.length_map] at this
      exact this.ge
    have hperm := (hn.subperm hsub).perm_of_length_le hlen
    exact hshown <| (hm k i).mp <| hperm.mem_iff.mpr <| (hm' k i).mpr ⟨p, x, hl⟩
  case mpr =>
    refine fun hc => ⟨slots, hn, fun k i => (hm k i).trans ⟨fun h => hshown h i le_rfl, fun ⟨p, x, hl⟩ => ?_⟩, rfl⟩
    have ⟨c, hb, _⟩ := live_iff.mp ⟨p, x, hl⟩
    refine ⟨hvis k i p x hl, c, hb, fun j hj => (hfree k c j hb).mpr ?_⟩
    have ⟨d, hd, hne⟩ := live_iff.mp <| hc k i p x hl j hj
    exact Option.some.inj (hb.symm.trans hd) ▸ hne

variable [HardDisk] [Formattable] {disk₀ : Nat → Block} {s s' : Fs.State} {L : Set Nat} {path : Nat → List Name}
variable {ns : List Name} {b : Nat} {failed : Int} {other : Int → FileInfo → FsM (Int × List Path)}

theorem wp_listDir {E : Fault → Fs.State → Prop} (failed : Int) (other : Int → FileInfo → FsM (Int × List Path))
    (h : Leads disk₀ ns b s L path) (hn : ∀ i, ¬s.Names (absPath ns) i) :
    (listDir (absPath ns) failed other).wp (fun r _ => (¬s.Room ns ∧ r = (failed, [])) ∨
      (s.Room ns ∧ ∃ names, r = (0, names) ∧ Reports (s.obj b) 0 names)) E s := by
  rw [listDir, Prog.wp_bind]
  refine wp_fsOpen h.toReady (.of_resolve h.resolve) fun fd s₁ o => ?_
  rcases o.result with ⟨rfl, hno, _⟩ | ⟨i, rfl, o₁, hop, ⟨o', _⟩ | f⟩
  case inl => exact .inl ⟨mt (h.openable_iff hn).mpr hno, rfl⟩
  case inr.inl => exact absurd o'.name (hn i)
  case inr.inr =>
    have ⟨ho, hm⟩ := h.newFile f
    have hi : ¬(i : Int) < 0 := by omega
    have r := o.changed.ready
    rw [if_neg hi, Prog.wp_bind]
    refine wp_getFileInfo r o₁ fun info hmode _ => ?_
    rw [hmode, hm, if_neg (not_not.mpr rfl), Prog.wp_bind]
    refine wp_listEntries r o₁ hm (fun k c hc => h.dirs.block_ok b ⟨h.mem, h.mode⟩ k c (ho ▸ hc)) fun names s₂ so hrep => ?_
    rw [Prog.wp_bind, doClose, Prog.wp_bind]
    refine wp_fsClose_open so.ready so.opened fun _ _ => ?_
    exact .inr ⟨(h.openable_iff hn).mp hop, names, rfl, ho ▸ hrep⟩

theorem listsExactly_iff (h : Leads disk₀ ns b s L path) (hn : ∀ i, ¬s.Names (absPath ns) i) (hf : failed ≠ 0)
    (hvis : ∀ k i p x, (s.obj b).Live k i p x → (s.obj b).Visible k) :
    ListsExactly s (s.obj b) (listDir (absPath ns) failed other) ↔ s.Room ns ∧ Compact (s.obj b) := by
  have ⟨r, s', hr, hres⟩ := Prog.wp_total <| wp_listDir (E := fun _ _ => False) failed other h hn
  rcases hres with ⟨hroom, rfl⟩ | ⟨hroom, names, rfl, hrep⟩
  case inl =>
    refine iff_of_false ?_ fun h => hroom h.left
    rintro ⟨names, s'', hr', _⟩
    cases hr.symm.trans hr'
    exact hf rfl
  case inr =>
    rw [and_iff_right hroom, ←hrep.exactly_iff hvis h.inode_iff]
    constructor
    case mp =>
      rintro ⟨names', s'', hr', hs⟩
      cases hr.symm.trans hr'
      exact hs
    case mpr => exact fun hs => ⟨names, s', hr, hs⟩

-- `chips_ls` and `chips_readdir` list a directory completely after a history of creations and deletions if and only if
-- no entry is behind a free one in its block.
theorem lists_iff {s₀ : Fs.State} {es : List EntryEvent} (h : Leads disk₀ ns b s₀ L path)
    (h₀ : ∀ k i p x, (s₀.obj b).Live k i p x → (s₀.obj b).Visible k) (hs : Lts.Steps (EntryStep ns) s₀ es s)
    (hn : ∀ i, ¬s.Names (absPath ns) i) :
    (ListsExactly s (s.obj b) (chipsLs <| some <| absPath ns) ∧
      ListsExactly s (s.obj b) (chipsReaddir <| absPath ns)) ↔ s.Room ns ∧ Compact (s.obj b) := by
  have ⟨L', path', h', hvis⟩ := h.steps (P := fun o => ∀ k i p x, o.Live k i p x → o.Visible k) hs h₀
    (fun _ _ ho hi => hi.visible ho) fun _ _ ho hr => hr.visible ho
  rw [chipsLs, chipsReaddir, Option.getD_some, listsExactly_iff h' hn (by decide) hvis,
    listsExactly_iff h' hn (by decide) hvis, and_self_iff]

end Listing

section Small

-- On a small drive two files are created in the root directory, and the first one is deleted.

def bothFiles : Fs.State :=
  ((@fsCreate smallDrive (absPath [shortName]) dataFile).run firstFile).2

def secondFile : Fs.State :=
  ((@fsDelete smallDrive (absPath [newName])).run bothFiles).2

theorem newDrive_leads : ∃ disk₀ L path, @Leads smallDrive disk₀ [] rootInodeBlock newDrive L path ∧
    ∀ k, (newDrive.obj rootInodeBlock).block k = none := by
  let _ := smallDrive
  have f := newDrive_formatted
  exact ⟨_, _, _, ⟨f.ready, rfl, f.ready.dirs.root_dir.right⟩, fun k => f.root ▸ rfl⟩

theorem not_names {s : Fs.State} {p : Path} (h : ∀ i, (s.gft i).fName.map (·.chars) ≠ some p) (i : Fin 10) :
    ¬s.Names p i := by
  rintro ⟨a, ha⟩
  exact h i <| by rw [ha]; rfl

theorem newDrive_steps :
    Lts.Steps (@EntryStep smallDrive []) newDrive [.create newName dataFile, .create shortName dataFile] bothFiles := by
  let _ := smallDrive
  have hc : (fsCreate (absPath [newName]) dataFile).result newDrive = some true := by decide +kernel
  have hc' : (fsCreate (absPath [shortName]) dataFile).result firstFile = some true := by decide +kernel
  exact .step (.create (by decide : 1 ≤ 27) <| Prog.run_of_result hc) <|
    .single <| .create shortName_fits <| Prog.run_of_result hc'

theorem lists_iff_bothFiles :
    (ListsExactly bothFiles (bothFiles.obj rootInodeBlock) (@chipsLs smallDrive <| some <| absPath []) ∧
      ListsExactly bothFiles (bothFiles.obj rootInodeBlock) (@chipsReaddir smallDrive <| absPath [])) ↔
      bothFiles.Room [] ∧ Compact (bothFiles.obj rootInodeBlock) := by
  let _ := smallDrive
  have := smallDrive_formattable
  have ⟨disk₀, L, path, h, hb⟩ := newDrive_leads
  have hn : ∀ i, (bothFiles.gft i).fName.map (·.chars) ≠ some (absPath []) := by decide +kernel
  exact lists_iff h (fun k _ _ _ ⟨_, hc, _⟩ => nomatch (hb k).symm.trans hc) newDrive_steps <| not_names hn

-- The second file is there, but it is not listed.
theorem secondFile_not_lists : (∃ disk₀ L path, @Leads smallDrive disk₀ [] rootInodeBlock newDrive L path) ∧
    Lts.Steps (@EntryStep smallDrive []) newDrive
      [.create newName dataFile, .create shortName dataFile, .delete newName] secondFile ∧
    (∀ i, ¬secondFile.Names (absPath []) i) ∧
    ¬ListsExactly secondFile (secondFile.obj rootInodeBlock) (@chipsLs smallDrive <| some <| absPath []) := by
  let _ := smallDrive
  have hd : (fsDelete (absPath [newName])).result bothFiles = some true := by decide +kernel
  have hu : ∀ i, (bothFiles.gft i).fCount ≤ 1 := by decide +kernel
  have hn : ∀ i, (secondFile.gft i).fName.map (·.chars) ≠ some (absPath []) := by decide +kernel
  have hb : ((secondFile.obj rootInodeBlock).block 0).map (nameOf · 1) = some [98] := by decide +kernel
  have hl : (chipsLs <| some <| absPath []).result secondFile = some (0, []) := by decide +kernel
  have ⟨disk₀, L, path, h, _⟩ := newDrive_leads
  have hs := newDrive_steps.trans <| .single <| .delete (fun i _ => hu i) <| Prog.run_of_result hd
  refine ⟨⟨disk₀, L, path, h⟩, hs, not_names hn, ?_⟩
  rintro ⟨names, s', hr, slots, _, hm, hnames⟩
  have hnil : names = [] := by
    have := (Prog.run_of_result hl).symm.trans hr
    cases this
    rfl
  obtain ⟨c, hc, hname⟩ := Option.map_eq_some_iff.mp hb
  have hmem := (hm 0 1).mpr ⟨[98], _, c, hc, hname, nofun, rfl⟩
  rw [List.map_eq_nil_iff.mp (hnames.symm.trans hnil)] at hmem
  exact absurd hmem List.not_mem_nil

end Small

end Chips
