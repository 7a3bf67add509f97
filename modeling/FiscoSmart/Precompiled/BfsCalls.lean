import FiscoSmart.Precompiled.BfsTree

/-!
# Calls of the file system contract

A call that throws or returns an error changes nothing; any other call has built
directories or made a link, and keeps the tree of files consistent.

There are two exceptions.  The entries that `touch` makes for contracts and
links have no tables until the caller creates them, and `link` creates its table
under another path than that of the entry if the name or the version is empty.
-/

namespace FiscoSmart.Precompiled.Bfs

open Support Function List
open MonadExcept (ofExcept)

variable {name version abi baseName dir parentDir : Bytes} {fs fs' : FileSystem}

/-! ## Touching files -/

theorem checkFieldNameValidate_isName (h : checkFieldNameValidate name = true) : IsName name := by
  rcases name with - | ⟨c, rest⟩
  · cases h
  · rw [checkFieldNameValidate, Bool.and_eq_true, all_eq_true] at h
    refine ⟨cons_ne_nil _ _, fun hmem => ?_⟩
    rcases mem_cons.mp hmem with rfl | hmem
    · exact absurd h.1 (by decide)
    · have hallowed := h.2 slash hmem
      exact absurd hallowed (by decide)

variable {path absoluteDir : Bytes}

theorem isName_of_checkPathValid (h : checkPathValid path = .ok true) (hroot : path ≠ fsRoot)
    (htrim : trimSlashes path = .ok absoluteDir) :
    ∀ name ∈ splitTokens slash absoluteDir, IsName name := by
  rw [checkPathValid, htrim] at h
  split_ifs at h
  · cases h
  · cases h
  · change (if _ then pure false else pure _ : Except Exception Bool) = _ at h
    split_ifs at h
    · cases h
    · intro name hname
      have hall := all_eq_true.mp (Except.ok.inj h) name hname
      exact checkFieldNameValidate_isName hall


theorem recursiveBuildDir_built (hfs : Consistent fs) (htrim : trimSlashes absoluteDir = .ok dir)
    (hnames : ∀ name ∈ splitTokens slash dir, IsName name)
    (hrun : Runs (recursiveBuildDir absoluteDir) fs true fs') :
    Built fs (pathFrom fsRoot (splitTokens slash dir)) fs' := by
  rw [recursiveBuildDir, htrim] at hrun
  split_ifs at hrun
  · cases hrun
  · exact (buildDirs_built hnames hfs hfs.root).ok rfl hrun rfl

theorem runs_ofExcept {α : Type} {x : Except Exception α} {a : α}
    (h : Runs (ofExcept x : Call α) fs a fs') : x = .ok a ∧ fs' = fs := by
  rcases x with e | a'
  · cases h
  · cases h
    exact ⟨rfl, rfl⟩

/-- What a successful `touch` has done. -/
inductive Touched (fs : FileSystem) (path : Bytes) (type : Bytes) (fs' : FileSystem) : Prop
  | directory (htype : bfsTypeSet.lookup type = some .directory)
      (hvalid : checkPathValid path = .ok true) (hroot : path ≠ fsRoot)
      (hbuild : Runs (recursiveBuildDir path) fs true fs')
  | entry (entryType : FileType) (parentDir baseName : Bytes) (built : FileSystem)
      (htype : bfsTypeSet.lookup type = some entryType) (hentryType : entryType ≠ .directory)
      (hparent : getParentDirAndBaseName path = .ok (parentDir, baseName))
      (hbuild : Runs (recursiveBuildDir parentDir) fs true built)
      (hentry : Runs (addSubEntry parentDir baseName entryType) built PUnit.unit fs')

theorem ne_root_of_prefixed
    (h : ¬ (¬ userAppsPrefix <+: path ∧ ¬ userTablePrefix <+: path)) : path ≠ fsRoot := by
  rintro rfl
  exact h (by decide)

variable {type : FileType} {code : ℤ} {request : Request} {address : Bytes} {isWasm : Bool}

theorem buildFile_runs (h : Runs (buildFile parentDir baseName type) fs code fs') :
    code = codeSuccess ∧ ∃ built, Runs (recursiveBuildDir parentDir) fs true built ∧
      if type = .directory then fs' = built
      else Runs (addSubEntry parentDir baseName type) built PUnit.unit fs' := by
  obtain ⟨b, built, hbuild, hrun⟩ := h.of_bind
  rcases b with - | -
  · cases hrun
  · rw [if_pos rfl] at hrun
    by_cases hdir : type = .directory
    · rw [if_pos hdir] at hrun
      cases hrun
      exact ⟨rfl, _, hbuild, by rw [if_pos hdir]⟩
    · rw [if_neg hdir] at hrun
      obtain ⟨_, _, hentry, hreturn⟩ := hrun.of_bind
      cases hreturn
      exact ⟨rfl, built, hbuild, by rwa [if_neg hdir]⟩

theorem touch_cases {type : Bytes} (h : Runs (touch path type) fs code fs') :
    (code ≠ codeSuccess ∧ fs' = fs) ∨ (code = codeSuccess ∧ Touched fs path type fs') := by
  obtain ⟨valid, s, hcheck, hrun⟩ := h.of_bind
  obtain ⟨hvalid, rfl⟩ := runs_ofExcept hcheck
  cases valid with
  | false =>
    cases hrun
    exact .inl ⟨by decide, rfl⟩
  | true =>
  rw [if_neg (by decide)] at hrun
  rcases htype : bfsTypeSet.lookup type with - | fileType
  · rw [htype] at hrun
    cases hrun
    exact .inl ⟨by decide, rfl⟩
  · rw [htype] at hrun
    dsimp only at hrun
    split_ifs at hrun with hprefix hdir
    · cases hrun
      exact .inl ⟨by decide, rfl⟩
    · obtain ⟨hcode, built, hbuild, hfs'⟩ := buildFile_runs hrun
      rw [if_pos hdir] at hfs'
      subst hfs'
      exact .inr ⟨hcode, .directory (hdir ▸ htype) hvalid (ne_root_of_prefixed hprefix) hbuild⟩
    · obtain ⟨⟨parentDir, baseName⟩, s', hparse, hrest⟩ := hrun.of_bind
      obtain ⟨hparent, rfl⟩ := runs_ofExcept hparse
      obtain ⟨hcode, built, hbuild, hentry⟩ := buildFile_runs hrest
      rw [if_neg hdir] at hentry
      exact .inr ⟨hcode, .entry fileType parentDir baseName built htype hdir hparent hbuild hentry⟩

theorem externalTouchNewFile_cases {type : Bytes}
    (h : Runs (externalTouchNewFile path type) fs code fs') :
    (code ≠ codeSuccess ∧ fs' = fs) ∨ (code = codeSuccess ∧ Touched fs path type fs') := by
  rw [Runs, externalTouchNewFile, execute] at h
  rcases htouch : touch path type fs with ⟨code', s⟩ | ⟨e, s⟩
  · rw [htouch] at h
    cases h
    exact touch_cases htouch
  · rw [htouch] at h
    cases h
    exact .inl ⟨by decide, rfl⟩

/-! ### Directories -/

theorem exists_names (h : checkPathValid path = .ok true) (hroot : path ≠ fsRoot) :
    ∃ dir, trimSlashes path = .ok dir ∧ ∀ name ∈ splitTokens slash dir, IsName name := by
  rcases htrim : trimSlashes path with e | dir
  · rw [checkPathValid, htrim] at h
    split_ifs at h
    · cases h
    · cases h
    · cases h
  · exact ⟨dir, rfl, isName_of_checkPathValid h hroot htrim⟩

theorem Touched.consistent {type : Bytes} (h : Touched fs path type fs') (hfs : Consistent fs)
    (htype : ∀ t, bfsTypeSet.lookup type = some t → t = .directory) : Consistent fs' := by
  rcases h with ⟨-, hvalid, hroot, hbuild⟩ | ⟨entryType, -, -, -, hlookup, hentryType⟩
  · obtain ⟨dir, htrim, hnames⟩ := exists_names hvalid hroot
    exact (recursiveBuildDir_built hfs htrim hnames hbuild).consistent
  · exact absurd (htype _ hlookup) hentryType

/-! ### Links -/

theorem trimSlashes_of_isName (h : IsName name) (p : Bytes) :
    trimSlashes (slash :: (p ++ name)) = .ok (p ++ name) := by
  have hlast : (p ++ name).getLast? = some (name.getLast h.ne_nil) := by
    rw [getLast?_append_of_ne_nil _ h.ne_nil, getLast?_eq_some_getLast h.ne_nil]
  rw [trimSlashes, head?_cons, if_pos rfl, tail_cons]
  simp only [hlast]
  rw [if_neg]
  intro heq
  exact h.slash_not_mem (heq ▸ getLast_mem h.ne_nil)

theorem head?_ne_slash (h : IsName name) (rest : Bytes) : (name ++ rest).head? ≠ some slash := by
  obtain ⟨c, tail, rfl⟩ := exists_cons_of_ne_nil h.ne_nil
  intro heq
  exact h.slash_not_mem (Option.some.inj heq ▸ mem_cons_self ..)

def appsName : Bytes := ascii "apps"

theorem isName_apps : IsName appsName := ⟨by decide, by decide⟩

theorem linkTableName_eq : userAppsPrefix ++ name ++ fsRoot ++ version =
      slash :: (appsName ++ slash :: (name ++ slash :: version)) := by
  rw [append_assoc, append_assoc]
  rfl

theorem parentDir_eq : userAppsPrefix ++ name = slash :: (appsName ++ slash :: name) := rfl

theorem splitTokens_parentDir (hname : IsName name) :
    splitTokens slash (appsName ++ slash :: name) = [appsName, name] := by
  have hhead : name.head? ≠ some slash := by simpa using head?_ne_slash hname []
  rw [splitTokens_append isName_apps.slash_not_mem hhead,
    splitTokens_of_not_mem hname.slash_not_mem]

theorem getParentDirAndBaseName_link (hname : IsName name) (hversion : IsName version) :
    getParentDirAndBaseName (userAppsPrefix ++ name ++ fsRoot ++ version) =
      .ok (userAppsPrefix ++ name, version) := by
  have htokens : splitTokens slash (appsName ++ slash :: (name ++ slash :: version)) =
      [appsName, name, version] := by
    have hhead : version.head? ≠ some slash := by simpa using head?_ne_slash hversion []
    rw [splitTokens_append isName_apps.slash_not_mem (head?_ne_slash hname _),
      splitTokens_append hname.slash_not_mem hhead, splitTokens_of_not_mem hversion.slash_not_mem]
  have htrim := trimSlashes_of_isName hversion (appsName ++ slash :: (name ++ [slash]))
  rw [append_assoc, cons_append, append_assoc, singleton_append] at htrim
  have hroot : slash :: (appsName ++ slash :: (name ++ slash :: version)) ≠ fsRoot := by
    simp [fsRoot, appsName, ascii]
  rw [linkTableName_eq, getParentDirAndBaseName, if_neg hroot, htrim]
  change Except.ok (slash :: fsRoot.intercalate (splitTokens slash _).dropLast,
    (splitTokens slash _).getLastD []) = _
  rw [htokens, parentDir_eq]
  simp [fsRoot, List.intercalate]

theorem pathFrom_parentDir : pathFrom fsRoot [appsName, name] = userAppsPrefix ++ name := by
  rfl

theorem childPath_parentDir : childPath (userAppsPrefix ++ name) version =
      userAppsPrefix ++ name ++ fsRoot ++ version := by
  rw [childPath, if_neg]
  intro heq
  rw [parentDir_eq] at heq
  simp [fsRoot, appsName, ascii] at heq

theorem addSubEntry_runs (h : Runs (addSubEntry parentDir baseName type) fs PUnit.unit fs') :
    ∃ table sub, fs parentDir = some table ∧ table.sub = some sub ∧ fs' = update fs parentDir
        (some { table with sub := some (sub.emplace baseName type) }) := by
  obtain ⟨found, s, hopen, hrun⟩ := h.of_bind
  cases hopen
  rcases htable : fs parentDir with - | table
  · rw [htable] at hrun
    cases hrun
  · rw [htable] at hrun
    rcases hsub : table.sub with - | sub
    · dsimp only at hrun
      rw [hsub] at hrun
      cases hrun
    · dsimp only at hrun
      rw [hsub] at hrun
      cases hrun
      exact ⟨table, sub, rfl, hsub, rfl⟩

theorem Touched.link (hname : IsName name) (hversion : IsName version)
    (hfs : Consistent fs) (hnew : fs (userAppsPrefix ++ name ++ fsRoot ++ version) = none)
    (h : Touched fs (userAppsPrefix ++ name ++ fsRoot ++ version) (ascii "link") fs')
    (file : FileTable) (hfile : file.kind = .link) :
    Consistent (update fs' (userAppsPrefix ++ name ++ fsRoot ++ version) (some file)) := by
  cases h with
  | directory htype => cases htype
  | entry entryType parentDir baseName built htype hentryType hparent hbuild hentry =>
    rw [getParentDirAndBaseName_link hname hversion] at hparent
    cases hparent
    cases htype
    have htrim : trimSlashes (userAppsPrefix ++ name) = .ok (appsName ++ slash :: name) := by
      have htrim := trimSlashes_of_isName hname (appsName ++ [slash])
      rwa [append_assoc] at htrim
    have hnames : ∀ dir ∈ splitTokens slash (appsName ++ slash :: name), IsName dir := by
      rw [splitTokens_parentDir hname]
      intro dir hdir
      rcases mem_pair.mp hdir with rfl | rfl
      · exact isName_apps
      · exact hname
    have hbuilt := recursiveBuildDir_built hfs htrim hnames hbuild
    rw [splitTokens_parentDir hname, pathFrom_parentDir] at hbuilt
    obtain ⟨table, sub, htable, hsub, rfl⟩ := addSubEntry_runs hentry
    rw [← childPath_parentDir] at hnew ⊢
    have hkind : table.kind = .directory := by
      have hdirectory := hbuilt.directory
      rw [kindAt, htable] at hdirectory
      exact Option.some.inj hdirectory
    have hbuiltNew : built (childPath (userAppsPrefix ++ name) version) = none := by
      have hkept := hbuilt.kept _ (length_lt_childPath hversion _)
      rw [kindAt, kindAt, hnew] at hkept
      exact Option.map_eq_none_iff.mp hkept
    rw [update_comm (childPath_ne_self hversion).symm, ← hfile]
    exact hbuilt.consistent.addFile file htable hkind hsub hversion hbuiltNew fun hdirectory => by
      rw [hfile] at hdirectory
      cases hdirectory

theorem getContractStatus_runs {tableName : Bytes}
    {status : ContractStatus} (h : Runs (getContractStatus tableName) fs status fs') :
    fs' = fs := by
  obtain ⟨found, s, hopen, hrun⟩ := h.of_bind
  cases hopen
  rcases hfound : fs tableName with - | table
  · rw [hfound] at hrun
    cases hrun
    rfl
  · rw [hfound] at hrun
    dsimp only at hrun
    rcases hcode : table.codeHash with - | codeHash
    · rw [hcode] at hrun
      cases hrun
      rfl
    · rw [hcode] at hrun
      dsimp only at hrun
      split_ifs at hrun <;> cases hrun <;> rfl

theorem checkLinkParam_runs (h : Runs (checkLinkParam address name version abi) fs code fs') :
    fs' = fs ∧ (code = codeAddressOrVersionError ∨
      code = codeSuccess ∧ slash ∉ version ∧ slash ∉ name) := by
  obtain ⟨status, s, hstat, hrun⟩ := h.of_bind
  obtain rfl := getContractStatus_runs hstat
  split_ifs at hrun with hunavailable hslash
  · cases hrun
    exact ⟨rfl, .inl rfl⟩
  · cases hrun
    exact ⟨rfl, .inl rfl⟩
  · cases hrun
  · cases hrun
    exact ⟨rfl, .inr ⟨rfl, not_or.mp hslash⟩⟩

/-- What a successful `link` has done: an existing link has a new address, or
there is a new file. -/
inductive Linked (fs : FileSystem) (path : Bytes) (fs' : FileSystem) : Prop
  | overwritten (linkTable file : FileTable) (hlink : fs path = some linkTable)
      (hkind : file.kind = linkTable.kind) (hsub : file.sub = linkTable.sub)
      (hfs' : fs' = update fs path (some file))
  | created (file : FileTable) (touched : FileSystem) (hnew : fs path = none)
      (htouched : Touched fs path (ascii "link") touched) (hkind : file.kind = .link)
      (hfs' : fs' = update touched path (some file))

theorem link_cases (h : Runs (link isWasm name version address abi) fs code fs') :
    (code ≠ codeSuccess ∧ fs' = fs) ∨
      (code = codeSuccess ∧ slash ∉ trim version ∧ slash ∉ trim name ∧
        Linked fs (userAppsPrefix ++ trim name ++ fsRoot ++ trim version) fs') := by
  obtain ⟨validCode, s, hparam, hrun⟩ := h.of_bind
  obtain ⟨rfl, hcode⟩ := checkLinkParam_runs hparam
  rcases hcode with rfl | ⟨rfl, hversion, hname⟩
  · cases hrun
    exact .inl ⟨by decide, rfl⟩
  obtain ⟨valid, s', hvalid, hrest⟩ := hrun.of_bind
  obtain ⟨-, rfl⟩ := runs_ofExcept hvalid
  cases valid with
  | false =>
    cases hrest
    exact .inl ⟨by decide, rfl⟩
  | true =>
  obtain ⟨found, s'', hopen, hwrite⟩ := hrest.of_bind
  cases hopen
  rcases hfound : s' (userAppsPrefix ++ trim name ++ fsRoot ++ trim version) with - | linkTable
  · rw [hfound] at hwrite
    obtain ⟨response, touched, htouch, hresponse⟩ := hwrite.of_bind
    rcases externalTouchNewFile_cases htouch with ⟨hne, rfl⟩ | ⟨rfl, htouched⟩
    · rw [if_pos (show response ≠ 0 from hne)] at hresponse
      cases hresponse
      exact .inl ⟨by decide, rfl⟩
    · rw [if_neg (by decide)] at hresponse
      obtain ⟨_, created, hcreate, hset⟩ := hresponse.of_bind
      obtain ⟨found, _, hopen, hblank⟩ := hcreate.of_bind
      cases hopen
      split_ifs at hblank
      · cases hblank
      · cases hblank
        cases hset
        refine .inr ⟨rfl, hversion, hname, .created _ touched hfound htouched ?_ (update_idem ..)⟩
        rfl
  · rw [hfound] at hwrite
    dsimp only at hwrite
    by_cases hlink : linkTable.type = some .link
    · rw [if_pos hlink] at hwrite
      cases hwrite
      refine .inr ⟨rfl, hversion, hname, .overwritten linkTable _ hfound ?_ ?_ rfl⟩
      · rfl
      · rfl
    · rw [if_neg hlink] at hwrite
      cases hwrite
      exact .inl ⟨by decide, rfl⟩

/-! ## Sequences of calls -/

/-- What a successful call has done. -/
def Done (fs fs' : FileSystem) : Request → Prop
  | .mkdir path => Touched fs path (ascii "directory") fs'
  | .link name version _ _ =>
    slash ∉ trim version ∧ slash ∉ trim name ∧
      Linked fs (userAppsPrefix ++ trim name ++ fsRoot ++ trim version) fs'
  | .touch path type => Touched fs path type fs'

theorem call_cases (h : Runs (call isWasm request) fs code fs') :
    (code ≠ codeSuccess ∧ fs' = fs) ∨ (code = codeSuccess ∧ Done fs fs' request) := by
  rcases request with path | ⟨name, version, address, abi⟩ | ⟨path, type⟩
  · obtain ⟨found, s, hopen, hrun⟩ := h.of_bind
    cases hopen
    split_ifs at hrun
    · cases hrun
      exact .inl ⟨by decide, rfl⟩
    · exact externalTouchNewFile_cases hrun
  · exact link_cases h
  · exact touch_cases h

/-- A call that throws or returns an error changes nothing; any other one has
done what it was asked for. -/
theorem execute_cases : (execute (call isWasm request) fs).2 = fs ∨
      ((execute (call isWasm request) fs).1 = some codeSuccess ∧
        Done fs (execute (call isWasm request) fs).2 request) := by
  rw [execute]
  rcases hrun : call isWasm request fs with ⟨code, fs'⟩ | ⟨e, fs'⟩
  · rcases call_cases hrun with ⟨-, hfs'⟩ | ⟨hcode, hdone⟩
    · exact .inl hfs'
    · exact .inr ⟨congrArg some hcode, hdone⟩
  · exact .inl rfl

/-- The calls that make whole files: `touch` for directories only, and `link`
with a name and a version. -/
def Request.Whole : Request → Prop
  | .mkdir _ => True
  | .link name version _ _ => trim name ≠ [] ∧ trim version ≠ []
  | .touch _ type => type ≠ ascii "contract" ∧ type ≠ ascii "link"

theorem lookup_directory {type : Bytes} (hcontract : type ≠ ascii "contract")
    (hlink : type ≠ ascii "link") (t : FileType) (h : bfsTypeSet.lookup type = some t) :
    t = .directory := by
  by_cases hdir : type = ascii "directory"
  · subst hdir
    exact (Option.some.inj h).symm
  · have hnone : bfsTypeSet.lookup type = none := by
      simp [bfsTypeSet, lookup_cons, lookup_nil, beq_false_of_ne hcontract, beq_false_of_ne hlink,
        beq_false_of_ne hdir]
    rw [hnone] at h
    cases h

theorem Done.consistent (h : Done fs fs' request)
    (hfs : Consistent fs) (hwhole : request.Whole) : Consistent fs' := by
  rcases request with path | ⟨name, version, address, abi⟩ | ⟨path, type⟩
  · exact Touched.consistent h hfs (lookup_directory (by decide) (by decide))
  · obtain ⟨hversion, hname, hlinked⟩ := h
    cases hlinked with
    | overwritten linkTable file hlink hkind hsub hfs' =>
      rw [hfs']
      exact hfs.setTable file hlink hkind hsub
    | created file touched hnew htouched hkind hfs' =>
      rw [hfs']
      exact htouched.link ⟨hwhole.1, hname⟩ ⟨hwhole.2, hversion⟩ hfs hnew file hkind
  · exact Touched.consistent h hfs (lookup_directory hwhole.1 hwhole.2)

theorem afterCalls_consistent (hfs : Consistent fs) {requests : List Request}
    (hwhole : ∀ request ∈ requests, request.Whole) :
    Consistent (afterCalls isWasm requests fs) := by
  induction requests generalizing fs with
  | nil => exact hfs
  | cons request requests ih =>
    refine ih ?_ fun r hr => hwhole r (mem_cons_of_mem _ hr)
    dsimp only
    rcases execute_cases with hfs' | ⟨-, hdone⟩
    · rwa [hfs']
    · exact hdone.consistent hfs (hwhole request (mem_cons_self ..))

/-! ### From the initial file system -/

theorem find?_subMap {names : List Bytes} {t : FileType} :
    (subMap names type).find? name = some t ↔ name ∈ names ∧ t = type := by
  have hfold (sub : SortedMap Bytes FileType) (hsub : ∀ n t, sub.find? n = some t → t = type) :
      (names.foldl (fun sub n => sub.emplace n type) sub).find? name = some t ↔
        (name ∈ names ∧ t = type) ∨ sub.find? name = some t := by
    induction names generalizing sub with
    | nil => simp
    | cons n names ih =>
      have hemplace (x : Bytes) (t : FileType) : (sub.emplace n type).find? x = some t ↔
          (x = n ∧ t = type) ∨ sub.find? x = some t := by
        rw [SortedMap.find?_emplace]
        split_ifs with heq
        · rcases hfound : sub.find? n with - | t'
          · simp [heq, hfound, eq_comm]
          · obtain rfl := hsub n t' hfound
            simp [heq, hfound, eq_comm]
        · simp [heq]
      rw [foldl_cons, ih, hemplace, mem_cons]
      · tauto
      · intro x t hx
        rcases (hemplace x t).mp hx with ⟨-, rfl⟩ | hx
        · rfl
        · exact hsub x t hx
  rw [subMap, hfold .empty fun n t ht => (nomatch ht)]
  exact or_iff_left fun h => (nomatch h)

theorem kindAt_createFileSystemTables : kindAt createFileSystemTables path = some type ↔
      (path = fsRoot ∨ ∃ name ∈ rootNames, path = childPath fsRoot name) ∧ type = .directory := by
  have hor (a b c d : Prop) : (a ∨ b ∨ c ∨ d) ↔ (a ∨ b ∨ d) ∨ c := by
    rw [or_assoc, or_assoc, or_comm (a := c)]
  have hnames : (∃ name ∈ rootNames, path = childPath fsRoot name) ↔
      (path = ascii "/usr" ∨ path = ascii "/apps" ∨ path = ascii "/tables") ∨ path = fsSysBin := by
    simp only [rootNames, mem_cons, not_mem_nil, or_false, exists_eq_or_imp, exists_eq_left]
    exact hor _ _ _ _
  have hsome {c : Prop} (hc : c) : some FileType.directory = some type ↔ c ∧ type = .directory :=
    ⟨fun h => ⟨hc, (Option.some.inj h).symm⟩, fun h => congrArg some h.2.symm⟩
  rw [kindAt, createFileSystemTables, hnames]
  by_cases hroot : path = fsRoot
  · rw [if_pos hroot]
    exact hsome (.inl hroot)
  rw [if_neg hroot]
  by_cases hfirst : path = ascii "/usr" ∨ path = ascii "/apps" ∨ path = ascii "/tables"
  · rw [if_pos hfirst]
    exact hsome (.inr (.inl hfirst))
  rw [if_neg hfirst]
  by_cases hsys : path = fsSysBin
  · rw [if_pos hsys]
    exact hsome (.inr (.inr hsys))
  · rw [if_neg hsys]
    refine ⟨fun h => absurd h.symm (Option.some_ne_none _), fun h => ?_⟩
    rcases h.1 with h | h | h
    · exact absurd h hroot
    · exact absurd h hfirst
    · exact absurd h hsys

theorem isName_of_mem_rootNames (h : name ∈ rootNames) : IsName name := by
  have hall : ∀ n ∈ rootNames, n ≠ [] ∧ slash ∉ n := by decide
  exact ⟨(hall name h).1, (hall name h).2⟩

theorem kindAt_child (hdir : dir ≠ []) (hname : IsName name) :
    kindAt createFileSystemTables (childPath dir name) = some type ↔
      (dir = fsRoot ∧ name ∈ rootNames) ∧ type = .directory := by
  rw [kindAt_createFileSystemTables]
  refine and_congr_left fun _ => ⟨?_, ?_⟩
  · rintro (heq | ⟨name', hname', heq⟩)
    · exact absurd heq (childPath_ne_root hdir hname)
    · obtain ⟨rfl, rfl⟩ := childPath_inj hdir (cons_ne_nil _ _) hname
        (isName_of_mem_rootNames hname') heq
      exact ⟨rfl, hname'⟩
  · rintro ⟨rfl, hmem⟩
    exact .inr ⟨name, hmem, rfl⟩

theorem createFileSystemTables_consistent : Consistent createFileSystemTables := by
  have hroot : kindAt createFileSystemTables fsRoot = some .directory := rfl
  have hclosed : Closed (kindAt createFileSystemTables) := by
    intro path hpath hne
    obtain ⟨type, htype⟩ := Option.ne_none_iff_exists'.mp hpath
    rcases (kindAt_createFileSystemTables.mp htype).1 with heq | ⟨name, hname, heq⟩
    · exact absurd heq hne
    · exact ⟨fsRoot, name, isName_of_mem_rootNames hname, heq, hroot⟩
  refine ⟨hroot, hclosed, fun dir table htable _ hsys => ?_⟩
  have hdir : dir ≠ [] := by
    rintro rfl
    cases htable
  rw [createFileSystemTables] at htable
  by_cases hdirRoot : dir = fsRoot
  · rw [if_pos hdirRoot] at htable
    cases htable
    refine ⟨_, rfl, fun name type => find?_subMap.trans ⟨fun h => ?_, fun h => ?_⟩⟩
    · have hname := isName_of_mem_rootNames h.1
      exact ⟨hname, (kindAt_child hdir hname).mpr ⟨⟨hdirRoot, h.1⟩, h.2⟩⟩
    · obtain ⟨⟨-, hmem⟩, htype⟩ := (kindAt_child hdir h.1).mp h.2
      exact ⟨hmem, htype⟩
  split_ifs at htable
  cases htable
  refine ⟨.empty, rfl, fun name type => ⟨fun h => (nomatch h), fun h => ?_⟩⟩
  exact absurd ((kindAt_child hdir h.1).mp h.2).1.1 hdirRoot

/-- After every sequence of calls that make whole files, the file system is
consistent; and no call that throws or returns an error changes anything. -/
theorem calls_keep_tree_consistent (isWasm : Bool) (requests : List Request)
    (hwhole : ∀ request ∈ requests, request.Whole) :
    Consistent (afterCalls isWasm requests createFileSystemTables) ∧
      ∀ fs request, (execute (call isWasm request) fs).1 ≠ some codeSuccess →
        (execute (call isWasm request) fs).2 = fs := by
  refine ⟨afterCalls_consistent createFileSystemTables_consistent hwhole, ?_⟩
  intro fs request hfailed
  rcases execute_cases with hfs | ⟨hcode, -⟩
  · exact hfs
  · exact absurd hcode hfailed

/-- The file system after these calls on the initial one. -/
def fileSystemAfter (requests : List Request) : FileSystem :=
  afterCalls false requests createFileSystemTables

/-- A directory, and a link in another one. -/
def directoryAndLink : List Request :=
  [.mkdir (ascii "/apps/a"), .link (ascii "b") (ascii "v1") (ascii "a") []]

theorem directoryAndLink_consistent : Consistent (fileSystemAfter directoryAndLink) ∧
      kindAt (fileSystemAfter directoryAndLink) (ascii "/apps/b/v1") = some .link := by
  refine ⟨(calls_keep_tree_consistent false directoryAndLink ?_).1, by decide +kernel⟩
  intro request hreq
  rcases mem_pair.mp hreq with rfl | rfl
  · exact True.intro
  · exact ⟨by decide, by decide⟩

def entryOf (fs : FileSystem) (dir name : Bytes) : Option FileType :=
  ((fs dir).bind FileTable.sub).bind (SortedMap.find? · name)

def namelessLink : List Request :=
  [.mkdir (ascii "/apps/a"), .link [] (ascii "v1") (ascii "a") []]

/-- A directory where `touch` has entered a contract. -/
def directoryOverEntry : List Request :=
  [.touch (ascii "/apps/c") (ascii "contract"), .mkdir (ascii "/apps/c/d")]

/-- The directory of the system contracts lists contracts without tables; a
link without a name has its entry under one path and its table under another;
and a directory that is built over an entry of `touch` keeps the type of the
entry. -/
theorem tree_not_consistent :
    (entryOf createFileSystemTables fsSysBin (ascii "bfs") = some .contract ∧
      kindAt createFileSystemTables (ascii "/sys/bfs") = none) ∧
    (entryOf (fileSystemAfter namelessLink) (ascii "/apps") (ascii "v1") = some .link ∧
      kindAt (fileSystemAfter namelessLink) (ascii "/apps/v1") = none ∧
      kindAt (fileSystemAfter namelessLink) (ascii "/apps//v1") = some .link) ∧
    (entryOf (fileSystemAfter directoryOverEntry) (ascii "/apps") (ascii "c") = some .contract ∧
      kindAt (fileSystemAfter directoryOverEntry) (ascii "/apps/c") = some .directory) := by
  decide +kernel

end FiscoSmart.Precompiled.Bfs
