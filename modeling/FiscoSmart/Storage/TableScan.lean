import FiscoSmart.Storage.TableUndo
import FiscoSmart.Support.XorSum

/-!
# What a table shows to the outside

The primary-key scan and the hash go over the pages and over the container.
Both are functions of the rows of the table alone: the scan returns a window of
the keys that match its condition, the hash is the exclusive or over the dirty
rows.
-/

namespace FiscoSmart.Storage

open Support

variable {env : TableEnv} {c : Key → Option Data} {k : Key} {ok : Prop} {s : TableState}
  {f : Key → Option Address} {d : Data} {p : Page}

/-! ## Primary keys -/

variable {keys : List Key}

/-- The keys of live rows that a condition admits. -/
def matchingKeys (condition : Condition) (rows : List (Key × Entry)) : List Key :=
  (rows.filter (fun row => row.2.live && condition.isValid row.1)).map Prod.fst

/-- The keys with positions from `first` to before `last`, when `n` keys were
counted before. -/
def windowFrom (first last n : ℕ) (keys : List Key) : List Key :=
  (keys.take (last - n)).drop (first - n)

/-- The window `limit(offset, total)` of a list of keys; the end of the window
is computed in 64 bits. -/
def limitWindow (limit : UInt64 × UInt64) (keys : List Key) : List Key :=
  windowFrom limit.1.toNat (limit.1 + limit.2).toNat 0 keys

section Window

variable {first last n : ℕ}

theorem windowFrom_cons :
    windowFrom first last n (k :: keys) = (if first ≤ n ∧ n < last then [k] else []) ++
        windowFrom first last (n + 1) keys := by
  unfold windowFrom
  by_cases hend : n < last
  · obtain ⟨r, hr⟩ : ∃ r, last - n = r + 1 := ⟨last - n - 1, by omega⟩
    have hr' : last - (n + 1) = r := by omega
    rw [hr, hr', List.take_succ_cons]
    by_cases hstart : first ≤ n
    · have h0 : first - n = 0 := by omega
      have h1 : first - (n + 1) = 0 := by omega
      simp [h0, h1, hstart, hend]
    · obtain ⟨q, hok⟩ : ∃ q, first - n = q + 1 := ⟨first - n - 1, by omega⟩
      have hok' : first - (n + 1) = q := by omega
      simp [hok, hok', hstart]
  · have h0 : last - n = 0 := by omega
    have h1 : last - (n + 1) = 0 := by omega
    simp [h0, h1, hend]

theorem windowFrom_of_le (h : last ≤ n) (keys : List Key) : windowFrom first last n keys = [] := by
  simp [windowFrom, Nat.sub_eq_zero_of_le h]

theorem windowFrom_append {keys' : List Key} :
    windowFrom first last n (keys ++ keys') = windowFrom first last n keys ++
        windowFrom first last (n + keys.length) keys' := by
  induction keys generalizing n with
  | nil => simp [windowFrom]
  | cons k keys ih =>
    rw [List.cons_append, windowFrom_cons, windowFrom_cons, ih,
      List.append_assoc, List.length_cons, Nat.add_right_comm, Nat.add_assoc]

end Window

section Scan

variable (condition : Condition)

/-- What the scan of a list of rows has counted when it stops. -/
def counted (last n m : ℕ) : ℕ := if n < last ∧ last ≤ n + m then last else n + m

theorem scanRows_eq (rows : List (Key × Entry)) :
    ∀ (keys : List Key) (n : UInt64), n.toNat + rows.length < 2 ^ 64 →
      (TableM.scanRows condition rows keys n).1 = keys ++ windowFrom condition.limit.1.toNat
            (condition.limit.1 + condition.limit.2).toNat n.toNat (matchingKeys condition rows) ∧
        (TableM.scanRows condition rows keys n).2.toNat =
          counted (condition.limit.1 + condition.limit.2).toNat n.toNat
            (matchingKeys condition rows).length := by
  induction rows with
  | nil =>
    intro keys n _
    simp only [TableM.scanRows, matchingKeys, List.filter_nil, List.map_nil,
      List.length_nil, counted]
    refine ⟨by simp [windowFrom], ?_⟩
    split_ifs <;> omega
  | cons row rows ih =>
    intro keys n hlen
    obtain ⟨key, entry⟩ := row
    rw [List.length_cons] at hlen
    by_cases hmatch : entry.live && condition.isValid key
    · have hsucc : (n + 1).toNat = n.toNat + 1 := by
        rw [UInt64.toNat_add, UInt64.toNat_one]
        omega
      have hkeys : matchingKeys condition ((key, entry) :: rows) =
          key :: matchingKeys condition rows := by
        rw [matchingKeys, List.filter_cons, if_pos hmatch]
        rfl
      have hcond : (condition.limit.1 ≤ n ∧ n < condition.limit.1 + condition.limit.2) ↔
          condition.limit.1.toNat ≤ n.toNat ∧
            n.toNat < (condition.limit.1 + condition.limit.2).toNat := by
        rw [UInt64.le_iff_toNat_le, UInt64.lt_iff_toNat_lt]
      have hstop : (n + 1 = condition.limit.1 + condition.limit.2) ↔
          n.toNat + 1 = (condition.limit.1 + condition.limit.2).toNat := by
        rw [← UInt64.toNat_inj, hsucc]
      rw [hkeys, windowFrom_cons, ← List.append_assoc]
      have hadd : (if condition.limit.1 ≤ n ∧
            n < condition.limit.1 + condition.limit.2 then keys ++ [key]
          else keys) = keys ++ (if condition.limit.1.toNat ≤ n.toNat ∧
            n.toNat < (condition.limit.1 + condition.limit.2).toNat then [key]
          else []) := by
        by_cases h : condition.limit.1 ≤ n ∧ n < condition.limit.1 + condition.limit.2
        · rw [if_pos h, if_pos (hcond.mp h)]
        · rw [if_neg h, if_neg (fun h' => h (hcond.mpr h')), List.append_nil]
      simp only [TableM.scanRows, if_pos hmatch, hadd]
      by_cases hlast : n + 1 = condition.limit.1 + condition.limit.2
      · have hlast' := hstop.mp hlast
        rw [if_pos hlast, windowFrom_of_le (by omega), List.append_nil, hsucc]
        refine ⟨rfl, ?_⟩
        rw [counted, if_pos ⟨by omega, by rw [List.length_cons]; omega⟩]
        exact hlast'
      · have hlast' : n.toNat + 1 ≠ (condition.limit.1 + condition.limit.2).toNat :=
          fun h => hlast (hstop.mpr h)
        obtain ⟨hfst, hsnd⟩ := ih _ (n + 1) (by omega)
        rw [if_neg hlast, hfst, hsnd, hsucc]
        refine ⟨rfl, ?_⟩
        simp only [counted, List.length_cons]
        split_ifs <;> omega
    · have hkeys : matchingKeys condition ((key, entry) :: rows) =
          matchingKeys condition rows := by
        rw [matchingKeys, List.filter_cons, if_neg hmatch]
        rfl
      simp only [TableM.scanRows, if_neg hmatch, hkeys]
      exact ih keys n (by omega)

theorem length_matchingKeys_le (rows : List (Key × Entry)) :
    (matchingKeys condition rows).length ≤ rows.length := by
  rw [matchingKeys, List.length_map]
  exact List.length_filter_le ..

/-- The scan of `asyncGetPrimaryKeys` over segments of rows. -/
def scanSegments (condition : Condition) : List (Segment Key Entry) → List Key → UInt64 → List Key
  | [], keys, _ => keys
  | t :: rest, keys, n =>
    scanSegments condition rest (TableM.scanRows condition t.2 keys n).1
      (TableM.scanRows condition t.2 keys n).2

/-- The count of a scan after the keys `seen`: it counts them all, or it has
passed the end of the window. -/
def CountsScan (last n : ℕ) (seen : List Key) : Prop :=
  n = seen.length ∨ (last ≤ n ∧ last ≤ seen.length ∧ n ≤ seen.length)

/-- The scan does not depend on where the rows are cut. -/
theorem scanSegments_eq {segs : List (Segment Key Entry)} : ∀ (seen : List Key) (n : UInt64),
      CountsScan (condition.limit.1 + condition.limit.2).toNat n.toNat seen →
      n.toNat + (flatten segs).length < 2 ^ 64 →
      scanSegments condition segs (limitWindow condition.limit seen) n = limitWindow condition.limit
          (seen ++ matchingKeys condition (flatten segs)) := by
  induction segs with
  | nil =>
    simp [scanSegments, flatten, matchingKeys]
  | cons t segs ih =>
    intro seen n hcounts hlen
    rw [flatten_cons, List.length_append] at hlen
    obtain ⟨hfst, hsnd⟩ := scanRows_eq condition t.2 (limitWindow condition.limit seen) n (by omega)
    have hle := length_matchingKeys_le condition t.2
    have hwindow : limitWindow condition.limit seen ++ windowFrom condition.limit.1.toNat
          (condition.limit.1 + condition.limit.2).toNat n.toNat (matchingKeys condition t.2) =
        limitWindow condition.limit (seen ++ matchingKeys condition t.2) := by
      rw [limitWindow, limitWindow, windowFrom_append, Nat.zero_add]
      rcases hcounts with hn | ⟨hn, hseen, _⟩
      · rw [hn]
      · rw [windowFrom_of_le hn, windowFrom_of_le hseen]
    have hcounts' : CountsScan (condition.limit.1 + condition.limit.2).toNat
        (TableM.scanRows condition t.2 (limitWindow condition.limit seen)
          n).2.toNat (seen ++ matchingKeys condition t.2) := by
      rw [hsnd, CountsScan, List.length_append, counted]
      rcases hcounts with hn | ⟨hn, hseen, hns⟩
      · split_ifs <;> omega
      · split_ifs <;> omega
    have hbound : (TableM.scanRows condition t.2
        (limitWindow condition.limit seen) n).2.toNat + (flatten segs).length < 2 ^ 64 := by
      rw [hsnd, counted]
      split_ifs <;> omega
    rw [scanSegments, hfst, hwindow, ih _ _ hcounts' hbound, flatten_cons]
    simp [matchingKeys]

end Scan

namespace TableM

variable (condition : Condition)

theorem segmentOf_loads {f' : Key → Option Address} {c' : Key → Option Data}
    (h : Loads env c f' c') (hindex : indexOf env c' = indexOf env c) :
    ∀ info ∈ indexOf env c, segmentOf env c' info = segmentOf env c info := by
  have hsegs := h.segments
  rw [segmentsOf, segmentsOf, hindex] at hsegs
  exact List.map_inj_left.mp hsegs

theorem scanPages_runs {infos : List PageInfo} :
    ∀ (keys : List Key) (n : UInt64) {s : TableState} {f : Key → Option Address}
      {c : Key → Option Data}, Sees ok s f c → Consistent env f c →
      (∀ info ∈ infos, info ∈ indexOf env c) →
      ∃ s' f' c', Runs (scanPages env condition infos keys n) s
          (scanSegments condition (infos.map (segmentOf env c)) keys n) s' ∧
        Sees ok s' f' c' ∧ Loads env c f' c' := by
  induction infos with
  | nil =>
    intro keys n s f c h hc _
    exact ⟨s, f, c, .of_pure, h, Loads.refl hc⟩
  | cons info infos ih =>
    intro keys n s f c h hc hinfos
    have hinfo := hinfos info (List.mem_cons_self ..)
    obtain ⟨b, s₁, f₁, c₁, d, p, hrun₁, hsees₁, hloads, hpage, _, hsame⟩ :=
      getData_page h hc hinfo (decide (0 < info.count))
    have hmeta := (hsame tableMetaKey (Ne.symm (hc.infos info hinfo).key)).2
    have hindex : indexOf env c₁ = indexOf env c := by
      rw [indexOf, indexOf, recordOf_congr hmeta]
    have hsegment := segmentOf_loads hloads hindex
    obtain ⟨s₂, f₂, c₂, hrun₂, hsees₂, hloads₂⟩ :=
      ih (scanRows condition p.entries.toList keys n).1
        (scanRows condition p.entries.toList keys n).2 hsees₁ hloads.consistent
        (fun i hi => hindex ▸ hinfos i (List.mem_cons_of_mem _ hi))
    refine ⟨s₂, f₂, c₂, ?_, hsees₂, hloads.trans hloads₂⟩
    have hrows : (segmentOf env c info).2 = p.entries.toList := by
      rw [← hsegment info hinfo, segmentOf, recordOf_cached hpage.cached,
        pageRows_eq hpage.record.data]
    have htail : infos.map (segmentOf env c₁) = infos.map (segmentOf env c) :=
      List.map_congr_left (fun i hi => hsegment i (hinfos i (List.mem_cons_of_mem _ hi)))
    rw [List.map_cons, scanSegments, hrows, ← htail]
    exact (Runs.tryCatch_of_ok hrun₁).bind ((hpage.runs hsees₁).bind hrun₂)

theorem getPrimaryKeys_runs (h : Sees ok s f c)
    (hc : Consistent env f c) (hlen : (rowsOf env c).length < 2 ^ 64) {table : Table}
    {condition : Condition} (htotal : condition.limit.2.toNat ≤ maxKeys) :
    ∃ s' f' c', Runs (getPrimaryKeys env table (some condition)) s
        (limitWindow condition.limit (matchingKeys condition (rowsOf env c))) s' ∧
      Sees ok s' f' c' ∧ Loads env c f' c' := by
  obtain ⟨a, s₁, f₁, c₁, d, m, hrun₁, hsees₁, hloads₁, hm⟩ := getData_meta h hc
  have hindex := hm.index env
  obtain ⟨s₂, f₂, c₂, hrun₂, hsees₂, hloads₂⟩ := scanPages_runs
    condition [] 0 hsees₁ hloads₁.consistent (fun i hi => hindex ▸ hi)
  refine ⟨s₂, f₂, c₂, ?_, hsees₂, hloads₁.trans hloads₂⟩
  have hsegs : m.pages.map (segmentOf env c₁) = segmentsOf env c := by
    rw [← hloads₁.segments, segmentsOf, hindex]
  have hscan : scanSegments condition (segmentsOf env c) [] 0 =
      limitWindow condition.limit (matchingKeys condition (rowsOf env c)) := by
    have hzero : CountsScan (condition.limit.1 + condition.limit.2).toNat
        (0 : UInt64).toNat [] := .inl rfl
    have hlen' : (0 : UInt64).toNat + (flatten (segmentsOf env c)).length < 2 ^ 64 := by
      rw [UInt64.toNat_zero, Nat.zero_add]
      exact hlen
    have hscan := scanSegments_eq condition [] 0 hzero hlen'
    rw [List.nil_append] at hscan
    rw [rowsOf, ← hscan]
    simp [limitWindow, windowFrom]
  rw [← hscan, ← hsegs]
  refine (Runs.tryCatch_of_ok hrun₁).bind ((hm.runs hsees₁).bind ?_)
  rw [if_neg (not_lt.mpr htotal)]
  exact hrun₂

theorem getPrimaryKeys_fails (h : Sees ok s f c) (hc : Consistent env f c) {table : Table}
    {condition : Condition} (htotal : maxKeys < condition.limit.2.toNat) :
    ∃ s', Fails (getPrimaryKeys env table (some condition)) s .lengthError s' := by
  obtain ⟨a, s₁, f₁, c₁, d, m, hrun₁, hsees₁, -, hm⟩ := getData_meta h hc
  refine ⟨s₁, Fails.after (Runs.tryCatch_of_ok hrun₁) (Fails.after (hm.runs hsees₁) ?_)⟩
  rw [if_pos htotal]
  exact .of_throw

end TableM

/-! ## The hash -/

section Hash

variable (table : Table) (hashImpl : Bytes → HashType)

theorem Page.hash_eq (p : Page) : p.hash table hashImpl =
      xorSum (p.entries.toList.map (rowHash table hashImpl)) := by
  have hstep : (fun (acc : HashType) (row : Key × Entry) =>
      if row.2.dirty then
        acc ^^^ (hashImpl table ^^^ hashImpl row.1 ^^^ row.2.hash hashImpl)
      else acc) = fun acc row => acc ^^^ rowHash table hashImpl row := by
    funext acc row
    unfold rowHash
    split_ifs
    · rfl
    · simp
  rw [Page.hash, hstep, foldl_xor_zero]

/-- What the record under a key contributes to the state hash. -/
def keyHash (c : Key → Option Data) (key : Key) : HashType :=
  ((c key).map (Data.hash table hashImpl)).getD 0

theorem xorSum_records : xorSum ((keys.filterMap (fun key => (c key).map (Prod.mk key))).map
      (fun r => r.2.hash table hashImpl)) = xorSum (keys.map (keyHash table hashImpl c)) := by
  induction keys with
  | nil => rfl
  | cons key keys ih =>
    rcases hc : c key with - | d
    · simp [hc, ih, keyHash]
    · simp [hc, ih, keyHash]

theorem xorSum_clean (hp : PageRecord k d p) (hclean : d.entry.dirty = false) :
    xorSum (p.entries.toList.map (rowHash table hashImpl)) = 0 := by
  refine xorSum_eq_zero fun x hx => ?_
  obtain ⟨row, hrow, rfl⟩ := List.mem_map.mp hx
  simp [rowHash, hp.clean hclean row hrow]

theorem keyHash_page (hck : c k = some d) (hp : PageRecord k d p) :
    keyHash table hashImpl c k = xorSum (p.entries.toList.map (rowHash table hashImpl)) := by
  have hhash : keyHash table hashImpl c k =
      if d.entry.dirty then p.hash table hashImpl else 0 := by
    rw [keyHash, hck, Option.map_some, Option.getD_some, Data.hash, hp.type, hp.data]
  rw [hhash]
  rcases hdirty : d.entry.dirty with - | -
  · rw [if_neg (by simp), xorSum_clean table hashImpl hp hdirty]
  · rw [if_pos rfl, Page.hash_eq]

theorem keyHash_info (hc : Consistent env f c)
    (hfetch : ∀ k d, env.fetch k = .ok (some d) → d.entry.dirty = false)
    {info : PageInfo} (hinfo : info ∈ indexOf env c) : keyHash table hashImpl c info.pageKey =
      xorSum ((segmentOf env c info).2.map (rowHash table hashImpl)) := by
  obtain ⟨_, ⟨d, p, hrec, hp, _⟩, _⟩ := hc.infos info hinfo
  rw [segmentOf_eq hrec hp.data]
  rcases hck : c info.pageKey with - | d'
  · rw [keyHash, hck, xorSum_clean table hashImpl hp (hfetch _ _ (fetch_of_recordOf hck hrec))]
    rfl
  · cases (recordOf_cached hck).symm.trans hrec
    exact keyHash_page table hashImpl hck hp

theorem indexed_of_keyHash_ne (hc : Consistent env f c)
    (h : keyHash table hashImpl c k ≠ 0) : k ∈ (indexOf env c).map PageInfo.pageKey := by
  rcases hck : c k with - | d
  · exact absurd (by simp [keyHash, hck]) h
  · by_cases hk : k = []
    · subst hk
      obtain ⟨m, hm⟩ := hc.metaRecord d (recordOf_cached hck)
      exact absurd (by simp [keyHash, hck, Data.hash, hm.type]) h
    · rcases hc.cachedPages k d hk hck with hmem | ⟨p, horphan⟩
      · exact hmem
      · refine absurd ?_ h
        simp [keyHash, hck, Data.hash, horphan.type, horphan.data, Page.hash_eq, horphan.rows]

theorem hash_eq_rows (h : Sees ok s f c) (hc : Consistent env f c)
    (hfetch : ∀ k d, env.fetch k = .ok (some d) → d.entry.dirty = false) : s.hash table hashImpl =
      xorSum ((rowsOf env c).map (rowHash table hashImpl)) := by
  have hcache : s.cached = c := funext h.cached
  have hindexed : xorSum (s.container.keys.map (keyHash table hashImpl c)) =
      xorSum (((indexOf env c).map PageInfo.pageKey).map (keyHash table hashImpl c)) := by
    refine xorSum_congr s.container.keys_nodup (hc.keys_increasing.imp (fun hlt => ne_of_lt hlt)) ?_
    intro k hk
    refine ⟨fun _ => indexed_of_keyHash_ne table hashImpl hc hk, fun _ => ?_⟩
    rcases hck : c k with - | d
    · exact absurd (by simp [keyHash, hck]) hk
    · obtain ⟨a, ha⟩ := h.exists_address hck
      rw [← h.find k] at ha
      exact AList.mem_keys.mpr (AList.lookup_isSome.mp (by
        rw [TableState.find] at ha
        simp [ha]))
  calc s.hash table hashImpl = xorSum (s.container.keys.map (keyHash table hashImpl c)) := by
        rw [TableState.hash, foldl_xor_zero, TableState.records, hcache, xorSum_records]
    _ = xorSum ((indexOf env c).map (fun info =>
          xorSum ((segmentOf env c info).2.map (rowHash table hashImpl)))) := by
        rw [hindexed, List.map_map]
        congr 1
        exact List.map_congr_left (fun info hinfo => keyHash_info table hashImpl hc hfetch hinfo)
    _ = xorSum ((rowsOf env c).map (rowHash table hashImpl)) := by
        rw [rowsOf, flatten, segmentsOf, List.map_flatMap, List.flatMap_map, xorSum_flatMap]

end Hash

end FiscoSmart.Storage
