import FiscoSmart.Precompiled.Bfs
import FiscoSmart.Support.Contracts

/-!
# The tree of files

What exists is the tree of the file system: the type of the file at each path.
A file system is consistent if every file stands in a directory and the map of
every directory lists the files that stand in it.  A call adds files one by one,
each together with its entry, so that consistency is kept step by step.

The directory of the system contracts is an exception: its entries have no
tables.
-/

namespace FiscoSmart.Precompiled.Bfs

open Support Function List Option

variable {name : Bytes} {tree : Bytes → Option FileType} {table : FileTable} {fs : FileSystem}

/-! ## Paths -/

structure IsName (name : Bytes) : Prop where
  ne_nil : name ≠ []
  slash_not_mem : slash ∉ name

section Paths

variable {dir dir' name' : Bytes}

theorem length_lt_childPath (h : IsName name) (dir : Bytes) :
    dir.length < (childPath dir name).length := by
  have hname := length_pos_iff.mpr h.ne_nil
  rw [childPath, length_append]
  split_ifs
  · omega
  · rw [length_append]
    omega

theorem childPath_ne_self (h : IsName name) : childPath dir name ≠ dir :=
  fun heq => (length_lt_childPath h dir).ne' (congrArg List.length heq)

theorem childPath_ne_nil (dir name : Bytes) : childPath dir name ≠ [] := by
  rw [childPath]
  split_ifs with h
  · rw [h]
    exact cons_ne_nil _ _
  · simp [fsRoot]

theorem childPath_ne_root (hdir : dir ≠ []) (h : IsName name) : childPath dir name ≠ fsRoot := by
  intro heq
  have hlen := length_lt_childPath h dir
  rw [heq] at hlen
  exact hdir (length_eq_zero_iff.mp (Nat.lt_one_iff.mp hlen))

theorem childPath_eq :
    childPath dir name = (if dir = fsRoot then [] else dir) ++ slash :: name := by
  rw [childPath]
  split_ifs with h
  · rw [h]
    rfl
  · rw [append_assoc]
    rfl

theorem append_slash_inj {p p' : Bytes} (h : slash ∉ name) (h' : slash ∉ name')
    (heq : p ++ slash :: name = p' ++ slash :: name') : p = p' ∧ name = name' := by
  induction p generalizing p' with
  | nil =>
    rcases p' with - | ⟨c, p'⟩
    · exact ⟨rfl, (List.cons.inj heq).2⟩
    · have hmem : slash ∈ name := by
        rw [(List.cons.inj heq).2]
        exact mem_append_right _ (mem_cons_self ..)
      exact absurd hmem h
  | cons c p ih =>
    rcases p' with - | ⟨c', p'⟩
    · have hmem : slash ∈ name' := by
        rw [← (List.cons.inj heq).2]
        exact mem_append_right _ (mem_cons_self ..)
      exact absurd hmem h'
    · obtain ⟨hc, htail⟩ := List.cons.inj heq
      obtain ⟨hp, hname⟩ := ih htail
      exact ⟨by rw [hc, hp], hname⟩

theorem childPath_inj (hdir : dir ≠ []) (hdir' : dir' ≠ []) (h : IsName name)
    (h' : IsName name') (heq : childPath dir name = childPath dir' name') :
    dir = dir' ∧ name = name' := by
  rw [childPath_eq, childPath_eq] at heq
  obtain ⟨hp, hname⟩ := append_slash_inj h.slash_not_mem h'.slash_not_mem heq
  refine ⟨?_, hname⟩
  split_ifs at hp with hroot hroot' hroot'
  · rw [hroot, hroot']
  · exact absurd hp.symm hdir'
  · exact absurd hp hdir
  · exact hp

end Paths

/-! ## Consistent file systems -/

/-- The type of a file; a table without a type is a contract. -/
def FileTable.kind (table : FileTable) : FileType := table.type.getD .contract

def kindAt (fs : FileSystem) (path : Bytes) : Option FileType :=
  (fs path).map FileTable.kind

/-- Every file other than the root stands in a directory. -/
def Closed (tree : Bytes → Option FileType) : Prop :=
  ∀ path, tree path ≠ none → path ≠ fsRoot →
    ∃ dir name, IsName name ∧ path = childPath dir name ∧ tree dir = some .directory

/-- The map of the table lists the files in the directory. -/
def Lists (tree : Bytes → Option FileType) (dir : Bytes) (table : FileTable) : Prop :=
  ∃ sub, table.sub = some sub ∧ ∀ name type,
    sub.find? name = some type ↔ IsName name ∧ tree (childPath dir name) = some type

/-- Every file stands in a directory, and every directory except that of the
system contracts lists its files. -/
structure Consistent (fs : FileSystem) : Prop where
  root : kindAt fs fsRoot = some .directory
  closed : Closed (kindAt fs)
  lists : ∀ dir table, fs dir = some table → table.kind = .directory → dir ≠ fsSysBin →
    Lists (kindAt fs) dir table

variable {dirList : List Bytes}

theorem Closed.nil (h : Closed tree) : tree [] = none := by
  by_contra hne
  obtain ⟨dir, name, -, heq, -⟩ := h [] hne (cons_ne_nil _ _).symm
  exact childPath_ne_nil dir name heq.symm

theorem Closed.ne_nil (h : Closed tree) {path : Bytes}
    {type : FileType} (hpath : tree path = some type) : path ≠ [] := by
  rintro rfl
  rw [h.nil] at hpath
  cases hpath

theorem Closed.dir (h : Closed tree) {dir : Bytes}
    (hdir : dir ≠ []) (hname : IsName name) (hpath : tree (childPath dir name) ≠ none) :
    tree dir = some .directory := by
  obtain ⟨dir', name', hname', heq, hdir'⟩ := h _ hpath (childPath_ne_root hdir hname)
  obtain ⟨rfl, -⟩ := childPath_inj hdir (h.ne_nil hdir') hname hname' heq
  exact hdir'

/-! ## Adding a file -/

def addFile (fs : FileSystem) (dir name : Bytes) (table : FileTable)
    (sub : SortedMap Bytes FileType) (file : FileTable) : FileSystem :=
  update (update fs (childPath dir name) (some file)) dir
    (some { table with sub := some (sub.emplace name file.kind) })

section AddFile

variable {dir : Bytes} {sub : SortedMap Bytes FileType} (file : FileTable)

theorem kindAt_addFile (sub : SortedMap Bytes FileType) (hdir : fs dir = some table)
    (hname : IsName name) : kindAt (addFile fs dir name table sub file) =
      update (kindAt fs) (childPath dir name) (some file.kind) := by
  funext path
  rw [kindAt, addFile, update_apply]
  split_ifs with heq
  · rw [heq, update_of_ne (childPath_ne_self hname).symm, kindAt, hdir]
    rfl
  · rw [update_apply, update_apply]
    split_ifs <;> rfl

theorem Closed.update (h : Closed tree) (hdir : tree dir = some .directory) (hname : IsName name)
    (hnew : tree (childPath dir name) = none) (type : FileType) :
    Closed (Function.update tree (childPath dir name) (some type)) := by
  have hkept {path : Bytes} (hpath : tree path = some .directory) :
      Function.update tree (childPath dir name) (some type) path = some .directory := by
    rw [update_of_ne, hpath]
    rintro rfl
    rw [hnew] at hpath
    cases hpath
  intro path hpath hroot
  by_cases heq : path = childPath dir name
  · exact ⟨dir, name, hname, heq, hkept hdir⟩
  · rw [update_of_ne heq] at hpath
    obtain ⟨dir', name', hname', heq', hdir'⟩ := h path hpath hroot
    exact ⟨dir', name', hname', heq', hkept hdir'⟩

theorem Lists.emplace (h : Lists tree dir table)
    (hsub : table.sub = some sub) (hdir : dir ≠ []) (hname : IsName name)
    (hnew : tree (childPath dir name) = none) (type : FileType) :
    Lists (update tree (childPath dir name) (some type)) dir
      { table with sub := some (sub.emplace name type) } := by
  obtain ⟨sub', hsub', hlists⟩ := h
  obtain rfl : sub' = sub := Option.some.inj (hsub'.symm.trans hsub)
  have hnone : sub'.find? name = none := by
    by_contra hfound
    obtain ⟨type', htype'⟩ := ne_none_iff_exists'.mp hfound
    rw [((hlists name type').mp htype').2] at hnew
    cases hnew
  refine ⟨_, rfl, fun n type' => ?_⟩
  rw [SortedMap.find?_emplace, hnone]
  split_ifs with heq
  · subst heq
    rw [update_self]
    exact ⟨fun htype => ⟨hname, htype⟩, fun htype => htype.2⟩
  · rw [hlists]
    refine and_congr_right fun hn => ?_
    rw [update_of_ne]
    exact fun hpath => heq (childPath_inj hdir hdir hn hname hpath).2

theorem Lists.update {dir' : Bytes} {table' : FileTable}
    (h : Lists tree dir' table') (hdir : dir ≠ []) (hdir' : dir' ≠ []) (hne : dir' ≠ dir)
    (hname : IsName name) (type : FileType) :
    Lists (Function.update tree (childPath dir name) (some type)) dir' table' := by
  obtain ⟨sub', hsub', hlists⟩ := h
  refine ⟨sub', hsub', fun n type' => ?_⟩
  rw [hlists]
  refine and_congr_right fun hn => ?_
  rw [update_of_ne]
  exact fun hpath => hne (childPath_inj hdir' hdir hn hname hpath).1

theorem Closed.lists_empty (h : Closed tree)
    (hdir : dir ≠ []) (hnew : tree dir = none) (hsub : table.sub = some .empty) :
    Lists tree dir table := by
  refine ⟨.empty, hsub, fun n type => ⟨fun hfound => ?_, fun hn => ?_⟩⟩
  · cases hfound
  · have hdirectory := h.dir hdir hn.1 (by rw [hn.2]; exact some_ne_none _)
    rw [hnew] at hdirectory
    cases hdirectory

theorem Consistent.addFile (h : Consistent fs) (hdir : fs dir = some table)
    (hkind : table.kind = .directory) (hsub : table.sub = some sub) (hname : IsName name)
    (hnew : fs (childPath dir name) = none)
    (hfile : file.kind = .directory → file.sub = some .empty) :
    Consistent (addFile fs dir name table sub file) := by
  have hkindAt : kindAt fs dir = some .directory := by
    rw [kindAt, hdir, map_some, hkind]
  have hnewAt : kindAt fs (childPath dir name) = none := by
    rw [kindAt, hnew, map_none]
  have hne := h.closed.ne_nil hkindAt
  have htree := kindAt_addFile file sub hdir hname
  refine ⟨?_, ?_, ?_⟩
  · rw [htree, update_of_ne, h.root]
    intro heq
    rw [← heq, h.root] at hnewAt
    cases hnewAt
  · rw [htree]
    exact h.closed.update hkindAt hname hnewAt _
  · intro dir' table' hdir' hkind' hsys
    rw [htree]
    by_cases hself : dir' = dir
    · subst hself
      rw [Bfs.addFile, update_self] at hdir'
      cases hdir'
      exact (h.lists dir' table hdir hkind hsys).emplace hsub hne hname hnewAt _
    rw [Bfs.addFile, update_of_ne hself] at hdir'
    have hlists (hdirne : dir' ≠ []) (hold : Lists (kindAt fs) dir' table') :
        Lists (update (kindAt fs) (childPath dir name) (some file.kind)) dir' table' :=
      hold.update hne hdirne hself hname _
    by_cases hchild : dir' = childPath dir name
    · subst hchild
      rw [update_self] at hdir'
      cases hdir'
      have hchildne := childPath_ne_nil dir name
      exact hlists hchildne (h.closed.lists_empty hchildne hnewAt (hfile hkind'))
    · rw [update_of_ne hchild] at hdir'
      have hdirectory : kindAt fs dir' = some .directory := by
        rw [kindAt, hdir', map_some, hkind']
      exact hlists (h.closed.ne_nil hdirectory) (h.lists dir' table' hdir' hkind' hsys)

theorem Consistent.setTable (h : Consistent fs) (hdir : fs dir = some table)
    (hkind : file.kind = table.kind) (hsub : file.sub = table.sub) :
    Consistent (update fs dir (some file)) := by
  have htree : kindAt (update fs dir (some file)) = kindAt fs := by
    funext path
    rw [kindAt, kindAt, update_apply]
    split_ifs with heq
    · rw [heq, hdir, map_some, map_some, hkind]
    · rfl
  refine ⟨htree ▸ h.root, htree ▸ h.closed, fun dir' table' hdir' hkind' hsys => ?_⟩
  rw [htree]
  by_cases heq : dir' = dir
  · subst heq
    rw [update_self] at hdir'
    cases hdir'
    obtain ⟨sub', hsub', hlists⟩ := h.lists dir' table hdir (hkind ▸ hkind') hsys
    exact ⟨sub', hsub.trans hsub', hlists⟩
  · rw [update_of_ne heq] at hdir'
    exact h.lists dir' table' hdir' hkind' hsys

end AddFile

/-! ## Building directories -/

/-- From `fs` the directory `path` has been built, with its parents. -/
structure Built (fs : FileSystem) (path : Bytes) (fs' : FileSystem) : Prop where
  consistent : Consistent fs'
  directory : kindAt fs' path = some .directory
  /-- Nothing has been added below the directory. -/
  kept : ∀ p, path.length < p.length → kindAt fs' p = kindAt fs p

/-- The file at the end of a list of names. -/
def pathFrom (root : Bytes) (dirList : List Bytes) : Bytes := dirList.foldl childPath root

theorem length_le_pathFrom (hnames : ∀ dir ∈ dirList, IsName dir)
    (root : Bytes) : root.length ≤ (pathFrom root dirList).length := by
  induction dirList generalizing root with
  | nil => exact le_rfl
  | cons dir dirList ih =>
    have hdir := length_lt_childPath (hnames dir (mem_cons_self ..)) root
    have hrest := ih (fun d hd => hnames d (mem_cons_of_mem _ hd)) (childPath root dir)
    exact hdir.le.trans hrest

/-- What holds if the call returns. -/
abbrev IfReturns {α : Type} (fs : FileSystem) (x : Call α) (Q : α → FileSystem → Prop) : Prop :=
  Ensures (· = fs) x Q fun _ _ => True

theorem ifReturns_setTable {α : Type} {tableName : Bytes}
    {f : PUnit → Call α} {Q : α → FileSystem → Prop}
    (h : IfReturns (update fs tableName (some table)) (f ⟨⟩) Q) :
    IfReturns fs (setTable tableName table >>= f) Q := by
  rintro _ rfl
  exact h _ rfl

theorem kind_eq_directory : table.kind = .directory ↔ table.type = some .directory := by
  rw [FileTable.kind]
  rcases table.type with - | type
  · exact ⟨fun h => (nomatch h), fun h => (nomatch h)⟩
  · exact ⟨fun h => congrArg some h, fun h => Option.some.inj h⟩

theorem buildDirs_built (hnames : ∀ dir ∈ dirList, IsName dir) {root : Bytes} (hfs : Consistent fs)
    (hroot : kindAt fs root = some .directory) :
    IfReturns fs (buildDirs root dirList) fun built fs' =>
      built = true → Built fs (pathFrom root dirList) fs' := by
  induction dirList generalizing root fs with
  | nil => exact .of_pureAt fun _ => ⟨hfs, hroot, fun _ _ => rfl⟩
  | cons dir dirList ih =>
    have hname := hnames dir (mem_cons_self ..)
    have hrest : ∀ d ∈ dirList, IsName d := fun d hd => hnames d (mem_cons_of_mem _ hd)
    rw [kindAt, map_eq_some_iff] at hroot
    obtain ⟨table, htable, hkind⟩ := hroot
    refine .getAt ?_
    rw [htable]
    refine .of_ite (fun _ => .of_pureAt fun h => ?_) fun _ => ?_
    · cases h
    refine .getAt ?_
    rcases hnext : fs (childPath root dir) with - | next
    · rcases hsub : table.sub with - | bfsInfo
      · exact .of_throwAt True.intro
      · refine ifReturns_setTable (ifReturns_setTable ?_)
        have hadded : Consistent (addFile fs root dir table bfsInfo (.dir .empty)) :=
          hfs.addFile _ htable hkind hsub hname hnext fun _ => rfl
        have htree := kindAt_addFile (.dir .empty) bfsInfo htable hname
        have hchild : kindAt (addFile fs root dir table bfsInfo (.dir .empty))
            (childPath root dir) = some .directory := by
          rw [htree, update_self]
          rfl
        refine (ih hrest hadded hchild).post fun built fs' hbuilt htrue => ?_
        obtain ⟨hcons, hdir, hkept⟩ := hbuilt htrue
        refine ⟨hcons, hdir, fun p hp => ?_⟩
        rw [hkept p hp, htree, update_of_ne]
        rintro rfl
        exact absurd (length_le_pathFrom hrest (childPath root dir)) (not_le.mpr hp)
    · refine .of_ite (fun hnextdir => ?_) fun _ => .of_pureAt fun h => ?_
      · refine ih hrest hfs ?_
        rw [kindAt, hnext, map_some, kind_eq_directory.mpr hnextdir]
      · cases h

end FiscoSmart.Precompiled.Bfs
