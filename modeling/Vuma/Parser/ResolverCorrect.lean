import Vuma.Parser.Resolver

/-!
# What module resolution keeps

The definition that a name has in a file and its imports: the file's own, else that of the first of
the imports that has one. The resolver gives each name this definition. Items without a name do not
leave the file they are in, and the imported names come in the order of a hash map.
-/

namespace Vuma.Parser

open Lib

variable {P α : Type}

/-- The directory that the imports of a file are looked up from. -/
def baseDirOf (files : Files P α) (path : P) : P := (files.parent path).getD (files.ofString ".")

/-- The first item of a list with a name. -/
def findNamed (items : List (Item α)) (n : String) : Option (Item α) :=
  items.find? fun item => itemName item = some n

section Spec

variable (files : Files P α)

/-- The file of an import. -/
def target (baseDir : P) (i : Import) : P := resolveImportPath files i.path baseDir

/-- A name is defined in a program or in what it imports. -/
inductive Provides : Program α → P → String → Prop where
  | own {program : Program α} {baseDir : P} {n : String} {item : Item α}
      (h : item ∈ program.items) (hn : itemName item = some n) : Provides program baseDir n
  | imported {program program' : Program α} {baseDir : P} {n : String} {i : Import}
      (hi : i ∈ program.imports) (hread : files.read (target files baseDir i) = .ok program')
      (h : Provides program' (baseDirOf files (target files baseDir i)) n) :
      Provides program baseDir n

/-- The definition of a name: the program's own, else that of the first import that has one. -/
inductive Wins : Program α → P → String → Item α → Prop where
  | own {program : Program α} {baseDir : P} {n : String} {item : Item α}
      (h : findNamed program.items n = some item) : Wins program baseDir n item
  | imported {program program' : Program α} {baseDir : P} {n : String} {item : Item α}
      {pre post : List Import} {i : Import} (hown : findNamed program.items n = none)
      (himports : program.imports = pre ++ i :: post)
      (hpre : ∀ j ∈ pre, ∀ q, files.read (target files baseDir j) = .ok q →
        ¬ Provides files q (baseDirOf files (target files baseDir j)) n)
      (hread : files.read (target files baseDir i) = .ok program')
      (h : Wins program' (baseDirOf files (target files baseDir i)) n item) :
      Wins program baseDir n item

/-- The imports all resolve, with the symbols they ask for, and come to an end. -/
inductive Loads : Program α → P → Prop where
  | mk {program : Program α} {baseDir : P} (imported : Import → Program α)
      (hread : ∀ i ∈ program.imports,
        files.read (target files baseDir i) = .ok (imported i))
      (hsymbols : ∀ i ∈ program.imports, ∀ s ∈ i.symbols,
        Provides files (imported i) (baseDirOf files (target files baseDir i)) s)
      (h : ∀ i ∈ program.imports, Loads (imported i) (baseDirOf files (target files baseDir i))) :
      Loads program baseDir

/-- A file is imported by a program or by what it imports. -/
inductive ImportsFile : Program α → P → P → Prop where
  | direct {program : Program α} {baseDir : P} {i : Import} (hi : i ∈ program.imports) :
      ImportsFile program baseDir (target files baseDir i)
  | step {program program' : Program α} {baseDir path : P} {i : Import}
      (hi : i ∈ program.imports) (hread : files.read (target files baseDir i) = .ok program')
      (h : ImportsFile program' (baseDirOf files (target files baseDir i)) path) :
      ImportsFile program baseDir path

/-- What the resolver makes of a program: its own items, and one for each imported name that it
does not have itself. -/
structure Merged (program : Program α) (baseDir : P) (p : Program α) : Prop where
  span : p.span = program.span
  items : ∃ extra, p.items = (program.items.filter fun item => !item.isImport) ++ extra ∧
    (extra.map itemName).Nodup ∧ ∀ item, item ∈ extra ↔
      ∃ n, itemName item = some n ∧ findNamed program.items n = none ∧
        Wins files program baseDir n item

end Spec

section Names

theorem findNamed_nil (n : String) : findNamed ([] : List (Item α)) n = none := rfl

theorem findNamed_cons (item : Item α) (items : List (Item α)) (n : String) :
    findNamed (item :: items) n =
      if itemName item = some n then some item else findNamed items n := by
  by_cases h : itemName item = some n <;> simp [findNamed, h]

theorem findNamed_append (l l' : List (Item α)) (n : String) :
    findNamed (l ++ l') n = (findNamed l n).or (findNamed l' n) :=
  List.find?_append

theorem itemName_of_findNamed {items : List (Item α)} {n : String} {item : Item α}
    (h : findNamed items n = some item) : itemName item = some n := by
  rw [findNamed] at h
  simpa using List.find?_some h

theorem mem_of_findNamed {items : List (Item α)} {n : String} {item : Item α}
    (h : findNamed items n = some item) : item ∈ items :=
  List.mem_of_find?_eq_some h

theorem findNamed_eq_none {items : List (Item α)} {n : String} :
    findNamed items n = none ↔ ∀ item ∈ items, itemName item ≠ some n := by
  simp [findNamed]

theorem itemName_isImport {item : Item α} (h : item.isImport) : itemName item = none := by
  cases item <;> first | rfl | cases h

theorem itemName_isExport {item : Item α} (h : item.isExport) : itemName item = none := by
  cases item <;> first | rfl | cases h

/-- Imports have no name. -/
theorem findNamed_filter (items : List (Item α)) (n : String) :
    findNamed (items.filter fun item => !item.isImport) n = findNamed items n := by
  induction items with
  | nil => rfl
  | cons item items ih =>
    rw [findNamed_cons]
    cases hi : item.isImport with
    | false => rw [List.filter_cons_of_pos (by simp [hi]), findNamed_cons, ih]
    | true =>
      have hname : itemName item ≠ some n := by
        rw [itemName_isImport hi]
        exact fun h => by cases h
      rw [List.filter_cons_of_neg (by simp [hi]), if_neg hname, ih]

theorem findNamed_eq_some_iff {items : List (Item α)} (h : (items.map itemName).Nodup) {n : String}
    {item : Item α} : findNamed items n = some item ↔ item ∈ items ∧ itemName item = some n := by
  constructor
  · exact fun hfind => ⟨mem_of_findNamed hfind, itemName_of_findNamed hfind⟩
  · rintro ⟨hmem, hname⟩
    cases hfind : findNamed items n with
    | none => exact absurd hname (findNamed_eq_none.1 hfind item hmem)
    | some item' =>
      have heq := List.inj_on_of_nodup_map h hmem (mem_of_findNamed hfind)
        (hname.trans (itemName_of_findNamed hfind).symm)
      rw [heq]

theorem mem_collectExportableNames {program : Program α} {n : String} :
    n ∈ collectExportableNames program ↔ ∃ item ∈ program.items, itemName item = some n := by
  rw [collectExportableNames, List.mem_filterMap]
  refine exists_congr fun item => and_congr_right fun _ => ?_
  split_ifs with h
  · rw [Bool.or_eq_true] at h
    rcases h with h | h
    · simp [itemName_isImport h]
    · simp [itemName_isExport h]
  · rfl

end Names

section Meaning

variable {files : Files P α} {program p : Program α} {baseDir : P} {n : String} {item : Item α}

theorem Wins.itemName_eq (h : Wins files program baseDir n item) : itemName item = some n := by
  induction h with
  | own h => exact itemName_of_findNamed h
  | imported _ _ _ _ _ ih => exact ih

theorem Wins.provides (h : Wins files program baseDir n item) :
    Provides files program baseDir n := by
  induction h with
  | own h => exact .own (mem_of_findNamed h) (itemName_of_findNamed h)
  | imported _ himports _ hread _ ih => exact .imported (by simp [himports]) hread ih

theorem Merged.findNamed_eq_some_iff (h : Merged files program baseDir p) :
    findNamed p.items n = some item ↔ Wins files program baseDir n item := by
  obtain ⟨extra, hitems, hnodup, hextra⟩ := h.items
  rw [hitems, findNamed_append, findNamed_filter]
  cases hown : findNamed program.items n with
  | some own =>
    rw [Option.some_or, Option.some_inj]
    constructor
    · rintro rfl
      exact .own hown
    · intro hwins
      cases hwins with
      | own h =>
        rw [hown] at h
        exact Option.some.inj h
      | imported hnone =>
        rw [hown] at hnone
        cases hnone
  | none =>
    rw [Option.none_or, Parser.findNamed_eq_some_iff hnodup, hextra]
    constructor
    · rintro ⟨⟨m, hm, -, hwins⟩, hn⟩
      rw [hm] at hn
      cases hn
      exact hwins
    · intro hwins
      exact ⟨⟨n, hwins.itemName_eq, hown, hwins⟩, hwins.itemName_eq⟩

theorem exists_first {β : Type} {Q : β → Prop} {l : List β} (h : ∃ x ∈ l, Q x) :
    ∃ pre x post, l = pre ++ x :: post ∧ (∀ y ∈ pre, ¬ Q y) ∧ Q x := by
  classical
  obtain ⟨x, hx, hQ⟩ := h
  have hsome : (l.find? fun y => decide (Q y)).isSome :=
    List.find?_isSome.2 ⟨x, hx, decide_eq_true hQ⟩
  obtain ⟨y, hy⟩ := Option.isSome_iff_exists.1 hsome
  obtain ⟨hQy, pre, post, hl, hpre⟩ := List.find?_eq_some_iff_append.1 hy
  exact ⟨pre, y, post, hl, fun z hz => by simpa using hpre z hz, of_decide_eq_true hQy⟩

/-- Where the imports come to an end, each name has a definition. -/
theorem Loads.exists_wins (hload : Loads files program baseDir)
    (h : Provides files program baseDir n) : ∃ item, Wins files program baseDir n item := by
  induction hload with
  | @mk program baseDir imported hread _ _ ih =>
    cases hown : findNamed program.items n with
    | some item => exact ⟨item, .own hown⟩
    | none =>
      cases h with
      | own hmem hn => exact absurd hn (findNamed_eq_none.1 hown _ hmem)
      | imported hi hread' hprov =>
        obtain ⟨pre, i, post, himports, hpre, hi', q, hq, hprov'⟩ := exists_first
          (Q := fun i => i ∈ program.imports ∧
            ∃ q, files.read (target files baseDir i) = .ok q ∧
              Provides files q (baseDirOf files (target files baseDir i)) n)
          ⟨_, hi, hi, _, hread', hprov⟩
        rw [hread i hi'] at hq
        cases hq
        obtain ⟨item, hwins⟩ := ih i hi' hprov'
        refine ⟨item, .imported hown himports ?_ (hread i hi') hwins⟩
        intro j hj q hq hprov''
        exact hpre j hj ⟨by simp [himports, hj], q, hq, hprov''⟩

theorem Merged.findNamed_eq_none_iff (h : Merged files program baseDir p)
    (hload : Loads files program baseDir) :
    findNamed p.items n = none ↔ ¬ Provides files program baseDir n := by
  constructor
  · intro hnone hprov
    obtain ⟨item, hwins⟩ := hload.exists_wins hprov
    rw [h.findNamed_eq_some_iff.2 hwins] at hnone
    cases hnone
  · intro hnot
    cases hfind : findNamed p.items n with
    | none => rfl
    | some item => exact absurd (h.findNamed_eq_some_iff.1 hfind).provides hnot

theorem Loads.not_importsFile (hload : Loads files program baseDir) {path : P}
    (hread : files.read path = .ok program) (hbase : baseDir = baseDirOf files path) :
    ¬ ImportsFile files program baseDir path := by
  induction hload generalizing path with
  | @mk program baseDir imported hread' _ hl ih =>
    intro himports
    have htrans : ∀ {q : Program α} {b : P}, ImportsFile files q b path → ∀ i ∈ program.imports,
        ImportsFile files q b (target files baseDir i) := by
      intro q b h
      generalize hpath : path = path' at h
      induction h with
      | direct hj =>
        intro i hi
        subst hpath
        subst hbase
        exact .step hj hread (.direct hi)
      | step hj hr _ ih' => exact fun i hi => .step hj hr (ih' hpath i hi)
    cases himports with
    | direct hi =>
      rename_i i
      have hsame : imported i = program := by
        have h := hread' i hi
        rw [hread] at h
        exact (Except.ok.inj h).symm
      refine ih i hi (hread' i hi) rfl ?_
      have hself := htrans (.direct hi) i hi
      rw [hsame, ← hbase]
      exact hself
    | step hi hr h =>
      rename_i i
      rw [hread' i hi] at hr
      cases hr
      exact ih i hi (hread' i hi) rfl (htrans h i hi)

end Meaning

section Collect

variable {source : String} {n : String}

/-- The item that is collected for a name. -/
def importedItem (imported : Imported α) (n : String) : Option (Item α) :=
  (imported.lookup n).map Prod.snd

theorem importedItem_addImported (imported : Imported α) (item : Item α) (n : String) :
    importedItem (addImported source imported item) n =
      (importedItem imported n).or (if itemName item = some n then some item else none) := by
  rw [addImported]
  split_ifs with hskip hn hn
  · rw [Bool.or_eq_true] at hskip
    rcases hskip with h | h
    · rw [itemName_isImport h] at hn
      cases hn
    · rw [itemName_isExport h] at hn
      cases hn
  · rw [Option.or_none]
  · rw [hn]
    simp only
    split_ifs with hsome
    · rw [importedItem]
      obtain ⟨e, he⟩ := Option.isSome_iff_exists.1 hsome
      rw [he]
      rfl
    · rw [Option.not_isSome_iff_eq_none] at hsome
      rw [importedItem, importedItem, hsome, HashMap.lookup_insert_ite, if_pos rfl]
      rfl
  · rw [Option.or_none]
    cases hname : itemName item with
    | none => rfl
    | some m =>
      have hne : n ≠ m := by
        rintro rfl
        exact hn hname
      simp only
      split_ifs
      · rfl
      · rw [importedItem, importedItem, HashMap.lookup_insert_ite, if_neg hne]

theorem importedItem_foldl (items : List (Item α)) (imported : Imported α) (n : String) :
    importedItem (items.foldl (addImported source) imported) n =
      (importedItem imported n).or (findNamed items n) := by
  induction items generalizing imported with
  | nil => rw [List.foldl_nil, findNamed_nil, Option.or_none]
  | cons item items ih =>
    rw [List.foldl_cons, ih, importedItem_addImported, findNamed_cons, Option.or_assoc]
    congr 1
    split_ifs <;> rfl

/-- Each imported item is kept under its name. -/
def NamesItems (imported : Imported α) : Prop :=
  ∀ n item, importedItem imported n = some item → itemName item = some n

theorem namesItems_empty : NamesItems (∅ : Imported α) := by
  intro n item h
  cases h

theorem NamesItems.foldl {imported : Imported α} (h : NamesItems imported) (source : String)
    (items : List (Item α)) : NamesItems (items.foldl (addImported source) imported) := by
  intro n item hitem
  rw [importedItem_foldl] at hitem
  cases hn : importedItem imported n with
  | some item' =>
    rw [hn, Option.some_or, Option.some_inj] at hitem
    exact hitem ▸ h n item' hn
  | none =>
    rw [hn, Option.none_or] at hitem
    exact itemName_of_findNamed hitem

theorem pushMerged_eq {imported : Imported α} (h : NamesItems imported) (merged : List (Item α))
    (n : String) : pushMerged imported merged n =
      if (findNamed merged n).isSome then merged
      else merged ++ (importedItem imported n).toList := by
  have hany : (merged.any fun existing => itemName existing = some n) =
      (findNamed merged n).isSome := by
    rw [findNamed, Bool.eq_iff_iff, List.any_eq_true, List.find?_isSome]
  rw [pushMerged]
  cases hn : imported.lookup n with
  | none => simp [importedItem, hn]
  | some e =>
    have hname : itemName e.2 = some n := h n e.2 (by rw [importedItem, hn]; rfl)
    simp only [hname, hany, importedItem, hn]
    rfl

/-- The imported items that are added to a program. -/
def addedItems (own : List (Item α)) (imported : Imported α) (names : List String) :
    List (Item α) :=
  names.flatMap fun n =>
    if (findNamed own n).isSome then [] else (importedItem imported n).toList

theorem foldl_pushMerged {imported : Imported α} (h : NamesItems imported) (own : List (Item α))
    {names : List String} (hnodup : names.Nodup) :
    names.foldl (pushMerged imported) own = own ++ addedItems own imported names := by
  induction names using List.reverseRecOn with
  | nil => simp [addedItems]
  | append_singleton names n ih =>
    obtain ⟨hnames, -, hn⟩ := List.nodup_append.1 hnodup
    rw [List.foldl_append, ih hnames, List.foldl_cons, List.foldl_nil, pushMerged_eq h]
    -- the items added so far have other names
    have hother : findNamed (addedItems own imported names) n = none := by
      rw [findNamed_eq_none]
      intro item hitem hname
      obtain ⟨m, hm, hitem⟩ := List.mem_flatMap.1 hitem
      split_ifs at hitem with hown
      · cases hitem
      · have hm' := h m item (Option.mem_toList.1 hitem)
        rw [hname] at hm'
        exact hn m hm n (List.mem_singleton_self n) (Option.some.inj hm').symm
    rw [findNamed_append, hother, Option.or_none, addedItems, addedItems, List.flatMap_append,
      List.flatMap_cons, List.flatMap_nil, List.append_nil]
    split_ifs
    · rw [List.append_nil]
    · rw [List.append_assoc]

theorem mem_addedItems {own : List (Item α)} {imported : Imported α} {names : List String}
    {item : Item α} : item ∈ addedItems own imported names ↔
      ∃ n ∈ names, findNamed own n = none ∧ importedItem imported n = some item := by
  rw [addedItems, List.mem_flatMap]
  refine exists_congr fun n => and_congr_right fun _ => ?_
  split_ifs with h
  · simp [Option.isSome_iff_ne_none.1 h]
  · simp [Option.not_isSome_iff_eq_none.1 h]

theorem nodup_addedItems {own : List (Item α)} {imported : Imported α} (h : NamesItems imported)
    {names : List String} (hnodup : names.Nodup) :
    ((addedItems own imported names).map itemName).Nodup := by
  rw [addedItems, List.map_flatMap, List.nodup_flatMap]
  constructor
  · intro n _
    split_ifs
    · exact List.nodup_nil
    · cases importedItem imported n <;> simp
  · refine hnodup.imp fun {m n} hmn a hm hn => hmn ?_
    obtain ⟨item, hitem, hname⟩ := List.mem_map.1 hm
    obtain ⟨item', hitem', hname'⟩ := List.mem_map.1 hn
    split_ifs at hitem
    · cases hitem
    · split_ifs at hitem'
      · cases hitem'
      · have hm' := h m item (Option.mem_toList.1 hitem)
        have hn' := h n item' (Option.mem_toList.1 hitem')
        rw [hname] at hm'
        rw [hname'] at hn'
        exact Option.some.inj (hm'.symm.trans hn')

end Collect

section First

variable {files : Files P α} {program p : Program α} {baseDir : P} {n : String} {item : Item α}

/-- The definition that the first of the imports to have one gives to a name. -/
def FirstOf (files : Files P α) (baseDir : P) (imports : List Import) (n : String)
    (item : Item α) : Prop :=
  ∃ pre i post program', imports = pre ++ i :: post ∧
    (∀ j ∈ pre, ∀ q, files.read (target files baseDir j) = .ok q →
      ¬ Provides files q (baseDirOf files (target files baseDir j)) n) ∧
    files.read (target files baseDir i) = .ok program' ∧
    Wins files program' (baseDirOf files (target files baseDir i)) n item

theorem firstOf_nil : ¬ FirstOf files baseDir [] n item := by
  rintro ⟨pre, i, post, q, h, -⟩
  cases pre <;> cases h

theorem firstOf_cons {i : Import} {rest : List Import} {program' : Program α}
    (hread : files.read (target files baseDir i) = .ok program')
    (hload : Loads files program' (baseDirOf files (target files baseDir i)))
    (hp : Merged files program' (baseDirOf files (target files baseDir i)) p) :
    FirstOf files baseDir (i :: rest) n item ↔
      findNamed p.items n = some item ∨
        findNamed p.items n = none ∧ FirstOf files baseDir rest n item := by
  rw [hp.findNamed_eq_some_iff, hp.findNamed_eq_none_iff hload]
  constructor
  · rintro ⟨pre, j, post, q, himports, hpre, hq, hwins⟩
    cases pre with
    | nil =>
      cases himports
      rw [hread] at hq
      cases hq
      exact .inl hwins
    | cons k pre =>
      obtain ⟨rfl, hrest⟩ := List.cons.inj himports
      exact .inr ⟨hpre i (List.mem_cons_self ..) program' hread,
        pre, j, post, q, hrest, fun k hk => hpre k (List.mem_cons_of_mem _ hk), hq, hwins⟩
  · rintro (hwins | ⟨hnot, pre, j, post, q, himports, hpre, hq, hwins⟩)
    · exact ⟨[], i, rest, program', rfl, fun j hj => absurd hj List.not_mem_nil, hread, hwins⟩
    · refine ⟨i :: pre, j, post, q, by rw [himports, List.cons_append], ?_, hq, hwins⟩
      intro k hk q' hq'
      rcases List.mem_cons.1 hk with rfl | hk
      · rw [hread] at hq'
        cases hq'
        exact hnot
      · exact hpre k hk q' hq'

theorem wins_iff : Wins files program baseDir n item ↔
    findNamed program.items n = some item ∨
      findNamed program.items n = none ∧ FirstOf files baseDir program.imports n item := by
  constructor
  · intro h
    cases h with
    | own h => exact .inl h
    | imported hown himports hpre hread h =>
      exact .inr ⟨hown, _, _, _, _, himports, hpre, hread, h⟩
  · rintro (h | ⟨hown, pre, i, post, q, himports, hpre, hread, h⟩)
    · exact .own h
    · exact .imported hown himports hpre hread h

theorem symbolErrors_eq_nil {i : Import} {available : List String}
    (h : ∀ s ∈ i.symbols, s ∈ available) : symbolErrors (P := P) i available = [] := by
  rw [symbolErrors, List.filter_eq_nil_iff.2, List.map_nil]
  intro s hs
  simpa using h s hs

end First

section Merge

variable {files : Files P α} {program p : Program α} {baseDir : P}

/-- What is merged into a program: for each name the definition of the first import that has one. -/
def Collected (files : Files P α) (program : Program α) (baseDir : P) (imported : Imported α) :
    Prop :=
  NamesItems imported ∧
    ∀ n item, importedItem imported n = some item ↔ FirstOf files baseDir program.imports n item

theorem Collected.merged {imported : Imported α} (h : Collected files program baseDir imported)
    (o : KeyOrder String) : Merged files program baseDir (mergedProgram o program imported) where
  span := rfl
  items := by
    have hnodup : (o.order imported.keys).Nodup := (o.perm _).nodup_iff.2 imported.keys_nodup
    refine ⟨addedItems (program.items.filter fun item => !item.isImport) imported
      (o.order imported.keys), foldl_pushMerged h.1 _ hnodup, nodup_addedItems h.1 hnodup, ?_⟩
    intro item
    rw [mem_addedItems]
    constructor
    · rintro ⟨n, -, hown, hitem⟩
      rw [findNamed_filter] at hown
      exact ⟨n, h.1 n item hitem, hown, wins_iff.2 (.inr ⟨hown, (h.2 n item).1 hitem⟩)⟩
    · rintro ⟨n, -, hown, hwins⟩
      rcases wins_iff.1 hwins with h' | ⟨-, hfirst⟩
      · rw [hown] at h'
        cases h'
      · have hitem := (h.2 n item).2 hfirst
        refine ⟨n, (o.perm _).mem_iff.2 (HashMap.mem_keys_iff.2 ?_), by rwa [findNamed_filter],
          hitem⟩
        obtain ⟨e, he, -⟩ := Option.map_eq_some_iff.1 hitem
        rw [he]
        rfl

theorem filter_isImport_of_imports_isEmpty (h : program.imports.isEmpty) :
    (program.items.filter fun item => !item.isImport) = program.items := by
  rw [List.filter_eq_self]
  intro item hitem
  rw [List.isEmpty_iff, Program.imports, List.filterMap_eq_nil_iff] at h
  have hitem := h item hitem
  cases item <;> first | rfl | cases hitem

/-- A program without imports is not changed. -/
theorem Merged.of_imports_isEmpty (h : program.imports.isEmpty) :
    Merged files program baseDir program where
  span := rfl
  items := by
    refine ⟨[], by rw [filter_isImport_of_imports_isEmpty h, List.append_nil], List.nodup_nil, ?_⟩
    intro item
    constructor
    · exact fun hitem => absurd hitem List.not_mem_nil
    · rintro ⟨n, -, hown, hwins⟩
      rcases wins_iff.1 hwins with h' | ⟨-, hfirst⟩
      · rw [hown] at h'
        cases h'
      · rw [List.isEmpty_iff.1 h] at hfirst
        exact absurd hfirst firstOf_nil

/-- What `merge_imports` returns: the program, or what it collected merged into it. -/
def MergeResult (files : Files P α) (o : KeyOrder String) (program : Program α) (baseDir : P)
    (p : Program α) : Prop :=
  program.imports.isEmpty ∧ p = program ∨ ¬ program.imports.isEmpty ∧
    ∃ imported, Collected files program baseDir imported ∧ p = mergedProgram o program imported

theorem MergeResult.merged {o : KeyOrder String} (h : MergeResult files o program baseDir p) :
    Merged files program baseDir p := by
  rcases h with ⟨hempty, rfl⟩ | ⟨-, imported, hcollected, rfl⟩
  · exact .of_imports_isEmpty hempty
  · exact hcollected.merged o

end Merge

section Run

variable [DecidableEq P] {files : Files P α} {order : P → KeyOrder String}
  {st st' : Resolver P α} {program p : Program α} {baseDir path : P} {n : String} {item : Item α}

/-- The cached programs of files that load are the merged programs of these files. -/
def CacheOk (files : Files P α) (st : Resolver P α) : Prop :=
  ∀ q p, st.cache.lookup q = some p → ∀ program, files.read q = .ok program →
    Loads files program (baseDirOf files q) → Merged files program (baseDirOf files q) p

theorem cacheOk_new : CacheOk files (Resolver.new : Resolver P α) := by
  intro q p h
  cases h

/-- What a successful resolution leaves of the resolver. -/
structure Resolves (files : Files P α) (st st' : Resolver P α) : Prop where
  inProgress : st'.inProgress = st.inProgress
  errors : st'.errors = st.errors
  cache : CacheOk files st'

theorem Resolves.refl (h : CacheOk files st) : Resolves files st st := ⟨rfl, rfl, h⟩

theorem Resolves.trans {st'' : Resolver P α} (h : Resolves files st st')
    (h' : Resolves files st' st'') : Resolves files st st'' :=
  ⟨h'.inProgress.trans h.inProgress, h'.errors.trans h.errors, h'.cache⟩

/-- The resolver does its work on an import, in every state of a program that is being resolved. -/
def ResolvesImport (files : Files P α) (order : P → KeyOrder String) (program : Program α)
    (baseDir : P) (i : Import) (program' : Program α) : Prop :=
  ∀ st, CacheOk files st → (∀ q ∈ st.inProgress, ¬ ImportsFile files program baseDir q) →
    ∃ st' p, resolveRecursive files order st (target files baseDir i) = some (st', some p) ∧
      Resolves files st st' ∧ Merged files program' (baseDirOf files (target files baseDir i)) p

theorem importAll_of_resolvesImport {program' : Import → Program α} {imports : List Import}
    (hread : ∀ i ∈ imports, files.read (target files baseDir i) = .ok (program' i))
    (hload : ∀ i ∈ imports, Loads files (program' i) (baseDirOf files (target files baseDir i)))
    (hsymbols : ∀ i ∈ imports, ∀ s ∈ i.symbols,
      Provides files (program' i) (baseDirOf files (target files baseDir i)) s)
    (hrec : ∀ i ∈ imports, ResolvesImport files order program baseDir i (program' i))
    (hst : CacheOk files st)
    (hprog : ∀ q ∈ st.inProgress, ¬ ImportsFile files program baseDir q)
    {imported : Imported α} (hnames : NamesItems imported) :
    ∃ st' imported', importAll files order st imports baseDir imported = some (st', imported') ∧
      Resolves files st st' ∧ NamesItems imported' ∧
      ∀ n item, importedItem imported' n = some item ↔ importedItem imported n = some item ∨
        importedItem imported n = none ∧ FirstOf files baseDir imports n item := by
  induction imports generalizing st imported with
  | nil =>
    refine ⟨st, imported, by rw [importAll], .refl hst, hnames, fun n item => ?_⟩
    simp [firstOf_nil]
  | cons i rest ih =>
    have hi : i ∈ i :: rest := List.mem_cons_self ..
    obtain ⟨st₁, p, hres, hst₁, hp⟩ := hrec i hi st hst hprog
    -- every symbol that is asked for is there
    have herrors : symbolErrors (P := P) i (collectExportableNames p) = [] := by
      refine symbolErrors_eq_nil fun s hs => ?_
      obtain ⟨item, hwins⟩ := (hload i hi).exists_wins (hsymbols i hi s hs)
      have hfind := hp.findNamed_eq_some_iff.2 hwins
      exact mem_collectExportableNames.2 ⟨item, mem_of_findNamed hfind, hwins.itemName_eq⟩
    obtain ⟨st₂, imported', hall, hst₂, hnames', himported⟩ := ih
      (fun j hj => hread j (List.mem_cons_of_mem _ hj))
      (fun j hj => hload j (List.mem_cons_of_mem _ hj))
      (fun j hj => hsymbols j (List.mem_cons_of_mem _ hj))
      (fun j hj => hrec j (List.mem_cons_of_mem _ hj)) hst₁.cache
      (hst₁.inProgress ▸ hprog) (hnames.foldl i.path p.items)
    refine ⟨st₂, imported', ?_, hst₁.trans hst₂, hnames', fun n item => ?_⟩
    · rw [importAll]
      change (resolveRecursive files order st (target files baseDir i)).bind _ = _
      rw [hres]
      simp only [Option.bind_some, herrors, List.append_nil]
      exact hall
    · rw [himported, importedItem_foldl, firstOf_cons (hread i hi) (hload i hi) hp]
      cases importedItem imported n with
      | some item' => simp
      | none => simp

theorem mergeImports_of_resolvesImport (st : Resolver P α) (path : P)
    {program' : Import → Program α}
    (hread : ∀ i ∈ program.imports, files.read (target files baseDir i) = .ok (program' i))
    (hload : ∀ i ∈ program.imports,
      Loads files (program' i) (baseDirOf files (target files baseDir i)))
    (hsymbols : ∀ i ∈ program.imports, ∀ s ∈ i.symbols,
      Provides files (program' i) (baseDirOf files (target files baseDir i)) s)
    (hrec : ∀ i ∈ program.imports, ResolvesImport files order program baseDir i (program' i))
    (hst : CacheOk files st)
    (hprog : ∀ q ∈ st.inProgress, ¬ ImportsFile files program baseDir q) :
    ∃ st' p, mergeImports files order st path program baseDir = some (st', p) ∧
      Resolves files st st' ∧ MergeResult files (order path) program baseDir p := by
  rw [mergeImports]
  split_ifs with hempty
  · exact ⟨st, program, rfl, .refl hst, .inl ⟨hempty, rfl⟩⟩
  · obtain ⟨st', imported, hall, hst', hnames, himported⟩ :=
      importAll_of_resolvesImport hread hload hsymbols hrec hst hprog namesItems_empty
    refine ⟨st', mergedProgram (order path) program imported, ?_, hst',
      .inr ⟨hempty, imported, ⟨hnames, fun n item => ?_⟩, rfl⟩⟩
    · rw [hall]
      rfl
    · rw [himported]
      have hnone : importedItem (∅ : Imported α) n = none := rfl
      rw [hnone]
      simp

/-- A file that is not being resolved, and whose imports come to an end, resolves. -/
theorem Loads.resolveRecursive (order : P → KeyOrder String)
    (hload : Loads files program baseDir)
    (hread : files.read path = .ok program) (hbase : baseDir = baseDirOf files path)
    (hst : CacheOk files st)
    (hprog : ∀ q ∈ st.inProgress, q ≠ path ∧ ¬ ImportsFile files program baseDir q) :
    ∃ st' p, resolveRecursive files order st path = some (st', some p) ∧
      Resolves files st st' ∧ Merged files program baseDir p ∧
      (st.cache.lookup path = none → MergeResult files (order path) program baseDir p) := by
  induction hload generalizing path st with
  | @mk program baseDir program' hread' hsymbols hload ih =>
    rw [resolveRecursive]
    cases hcache : st.cache.lookup path with
    | some p =>
      have hmerged := hst path p hcache program hread
        (hbase ▸ Loads.mk program' hread' hsymbols hload)
      exact ⟨st, p, rfl, .refl hst, hbase ▸ hmerged, fun h => by cases h⟩
    | none =>
      have hnot : path ∉ st.inProgress := fun h => (hprog path h).1 rfl
      have hself := (Loads.mk program' hread' hsymbols hload).not_importsFile hread hbase
      have hrec : ∀ i ∈ program.imports,
          ResolvesImport files order program baseDir i (program' i) := by
        intro i hi st₁ hst₁ hprog₁
        obtain ⟨st', p, hres, hst', hp, -⟩ := ih i hi (hread' i hi) rfl hst₁ fun q hq => by
          refine ⟨?_, fun h => hprog₁ q hq (.step hi (hread' i hi) h)⟩
          rintro rfl
          exact hprog₁ _ hq (.direct hi)
        exact ⟨st', p, hres, hst', hp⟩
      obtain ⟨st', p, hmerge, hst', hp⟩ := mergeImports_of_resolvesImport
        { st with inProgress := path :: st.inProgress } path hread' hload hsymbols hrec hst
        fun q hq => by
          rcases List.mem_cons.1 hq with rfl | hq
          · exact hself
          · exact (hprog q hq).2
      refine ⟨{ st' with inProgress := st'.inProgress.erase path
                         cache := st'.cache.insert path p }, p, ?_, ⟨?_, hst'.errors, ?_⟩,
        hp.merged, fun _ => hp⟩
      · rw [hbase] at hmerge
        simp only [if_neg hnot, hread]
        change (mergeImports files order _ path program (baseDirOf files path)).bind _ = _
        rw [hmerge]
        rfl
      · simp only [hst'.inProgress, List.erase_cons_head]
      · intro q p' hp' program₁ hread₁ hload₁
        rw [HashMap.lookup_insert_ite] at hp'
        split_ifs at hp' with hq
        · subst hq
          cases hp'
          rw [hread] at hread₁
          cases hread₁
          exact hbase ▸ hp.merged
        · exact hst'.cache q p' hp' program₁ hread₁ hload₁

theorem resolveFile_of_loads (order : P → KeyOrder String)
    (hread : files.read (files.canonicalize path) = .ok program)
    (hload : Loads files program (baseDirOf files (files.canonicalize path))) :
    ∃ st p, resolveFile files order .new path = some (st, .ok p) ∧
      MergeResult files (order (files.canonicalize path)) program
        (baseDirOf files (files.canonicalize path)) p := by
  obtain ⟨st, p, hres, hst, -, hp⟩ := hload.resolveRecursive order hread rfl cacheOk_new
    fun q hq => absurd hq List.not_mem_nil
  refine ⟨st, p, ?_, hp rfl⟩
  rw [resolveFile]
  change (resolveRecursive files order .new (files.canonicalize path)).bind _ = _
  rw [hres]
  have herrors : st.errors = [] := hst.errors
  simp [herrors]

/-- A source that was read from a file resolves as the file does. -/
theorem resolveSource_eq_resolveFile (hcanonical : files.canonicalize path = path)
    (hparent : (files.parent path).isSome) (hread : files.read path = .ok program) :
    (resolveSource files order .new (.ok program) (some path)).map Prod.snd =
      (resolveFile files order .new path).map Prod.snd := by
  obtain ⟨dir, hdir⟩ := Option.isSome_iff_exists.1 hparent
  have hcache : (Resolver.new : Resolver P α).cache.lookup path = none := rfl
  have himports : program.imports.isEmpty = !program.items.any Item.isImport := by
    rw [Program.imports, Bool.eq_iff_iff, List.isEmpty_iff, List.filterMap_eq_nil_iff,
      Bool.not_eq_true', List.any_eq_false]
    refine forall_congr' fun item => forall_congr' fun _ => ?_
    cases item <;> simp [Item.isImport]
  rw [resolveFile, resolveSource, hcanonical, resolveRecursive]
  simp only [hcache, hread, Option.bind_eq_bind, Option.bind_some, hdir, Option.getD_some]
  rw [if_neg (show path ∉ (Resolver.new : Resolver P α).inProgress from List.not_mem_nil)]
  by_cases hempty : program.imports.isEmpty
  · rw [if_pos (himports ▸ hempty), mergeImports, if_pos hempty]
    rfl
  · rw [if_neg (himports ▸ hempty)]
    change Option.map _ ((mergeImports files order _ path program dir).bind _) =
      Option.map _ (Option.bind ((mergeImports files order _ path program dir).bind _) _)
    generalize mergeImports files order _ path program dir = result
    cases result <;> rfl

end Run

section Faithful

/-- An impl block or an extern block. -/
def Item.isBlock : Item α → Bool
  | .implBlock _ | .externBlock _ => true
  | _ => false

theorem itemName_isBlock {item : Item α} (h : item.isBlock) : itemName item = none := by
  cases item <;> first | rfl | cases h

theorem isImport_of_isBlock {item : Item α} (h : item.isBlock) : item.isImport = false := by
  cases item <;> first | rfl | cases h

/-- A resolved program has each definition of the program and of the files it imports, one for a
name, and no import. -/
structure Faithful (files : Files P α) (program : Program α) (baseDir : P) (p : Program α) :
    Prop where
  named : ∀ n, Provides files program baseDir n →
    ∃ item ∈ p.items, Wins files program baseDir n item
  once : (p.items.filterMap itemName).Nodup
  own : ∀ item ∈ program.items, item.isBlock → item ∈ p.items
  blocks : ∀ q program', ImportsFile files program baseDir q → files.read q = .ok program' →
    ∀ item ∈ program'.items, item.isBlock → item ∈ p.items
  noImport : ∀ item ∈ p.items, item.isImport = false

/-- The root resolves to the same faithful program, whatever the order of the hash maps. -/
def ResolvesFaithfully [DecidableEq P] (files : Files P α) (path : P) (program : Program α) :
    Prop :=
  (∀ order, ∃ st p, resolveFile files order .new path = some (st, .ok p) ∧
    Faithful files program (baseDirOf files (files.canonicalize path)) p) ∧
  ∀ order order' st st' p p', resolveFile files order .new path = some (st, .ok p) →
    resolveFile files order' .new path = some (st', .ok p') → p.items = p'.items

/-- The imports bring a name that the program does not define itself. -/
def NewName (files : Files P α) (program : Program α) (baseDir : P) (n : String) : Prop :=
  Provides files program baseDir n ∧ ∀ item ∈ program.items, itemName item ≠ some n

variable {files : Files P α} {program p p' : Program α} {baseDir path : P} {n m : String}

theorem filterMap_itemName_filter (items : List (Item α)) :
    (items.filter fun item => !item.isImport).filterMap itemName = items.filterMap itemName := by
  rw [List.filterMap_filter]
  refine List.filterMap_congr fun item _ => ?_
  split_ifs with h
  · rfl
  · exact (itemName_isImport (by simpa using h)).symm

/-- Items without a name do not come from the imports. -/
theorem Merged.mem_of_isBlock (h : Merged files program baseDir p) {item : Item α}
    (hblock : item.isBlock) (hitem : item ∈ p.items) : item ∈ program.items := by
  obtain ⟨extra, hitems, -, hextra⟩ := h.items
  rw [hitems] at hitem
  rcases List.mem_append.1 hitem with hitem | hitem
  · exact List.mem_of_mem_filter hitem
  · obtain ⟨n, hn, -⟩ := (hextra item).1 hitem
    rw [itemName_isBlock hblock] at hn
    cases hn

theorem Merged.nodup_own (h : Merged files program baseDir p)
    (hnodup : (p.items.filterMap itemName).Nodup) : (program.items.filterMap itemName).Nodup := by
  obtain ⟨extra, hitems, -⟩ := h.items
  rw [hitems, List.filterMap_append, filterMap_itemName_filter] at hnodup
  exact hnodup.of_append_left

theorem Merged.nodup (h : Merged files program baseDir p)
    (hown : (program.items.filterMap itemName).Nodup) : (p.items.filterMap itemName).Nodup := by
  obtain ⟨extra, hitems, hnodup, hextra⟩ := h.items
  rw [hitems, List.filterMap_append, filterMap_itemName_filter, List.nodup_append]
  refine ⟨hown, ?_, ?_⟩
  · refine List.Nodup.of_map some ?_
    have hmap : (extra.filterMap itemName).map some = extra.map itemName := by
      rw [List.map_filterMap]
      rw [← List.filterMap_eq_map]
      refine List.filterMap_congr fun item hitem => ?_
      obtain ⟨n, hn, -⟩ := (hextra item).1 hitem
      simp [hn]
    rwa [hmap]
  · rintro n hn _ hn' rfl
    obtain ⟨item, hitem, hname⟩ := List.mem_filterMap.1 hn
    obtain ⟨item', hitem', hname'⟩ := List.mem_filterMap.1 hn'
    obtain ⟨m, hm, hnone, -⟩ := (hextra item').1 hitem'
    rw [hname'] at hm
    cases hm
    exact findNamed_eq_none.1 hnone item hitem hname

theorem Merged.faithful (h : Merged files program baseDir p)
    (hload : Loads files program baseDir)
    (hblocks : ∀ q program', ImportsFile files program baseDir q → files.read q = .ok program' →
      ∀ item ∈ program'.items, item.isBlock → item ∈ program.items)
    (hown : (program.items.filterMap itemName).Nodup) : Faithful files program baseDir p := by
  have hitem : ∀ item ∈ program.items, item.isBlock → item ∈ p.items := by
    intro item hitem hblock
    obtain ⟨extra, hitems, -⟩ := h.items
    rw [hitems]
    exact List.mem_append_left _ (List.mem_filter.2 ⟨hitem, by simp [isImport_of_isBlock hblock]⟩)
  refine ⟨fun n hn => ?_, h.nodup hown, hitem, ?_, fun item hp => ?_⟩
  · obtain ⟨item, hwins⟩ := hload.exists_wins hn
    exact ⟨item, mem_of_findNamed (h.findNamed_eq_some_iff.2 hwins), hwins⟩
  · exact fun q program' hq hread item hmem hblock =>
      hitem item (hblocks q program' hq hread item hmem hblock) hblock
  · obtain ⟨extra, hitems, -, hextra⟩ := h.items
    rw [hitems] at hp
    rcases List.mem_append.1 hp with hp | hp
    · simpa using (List.mem_filter.1 hp).2
    · obtain ⟨n, hn, -⟩ := (hextra item).1 hp
      rw [← Bool.not_eq_true]
      intro himport
      rw [itemName_isImport himport] at hn
      cases hn

theorem Merged.items_eq (h : Merged files program baseDir p) (h' : Merged files program baseDir p')
    (hnew : ∀ m n, NewName files program baseDir m → NewName files program baseDir n → m = n) :
    p.items = p'.items := by
  obtain ⟨extra, hitems, hnodup, hextra⟩ := h.items
  obtain ⟨extra', hitems', hnodup', hextra'⟩ := h'.items
  have hperm : extra.Perm extra' :=
    (List.perm_ext_iff_of_nodup (hnodup.of_map _) (hnodup'.of_map _)).2 fun item =>
      (hextra item).trans (hextra' item).symm
  have hnewName : ∀ item ∈ extra, ∃ n, itemName item = some n ∧ NewName files program baseDir n :=
    fun item hitem => by
      obtain ⟨n, hn, hown, hwins⟩ := (hextra item).1 hitem
      exact ⟨n, hn, hwins.provides, findNamed_eq_none.1 hown⟩
  rw [hitems, hitems']
  congr 1
  match extra, hperm, hnodup, hnewName with
  | [], hperm, _, _ => exact hperm.nil_eq
  | [item], hperm, _, _ => exact List.singleton_perm.1 hperm
  | item :: item' :: rest, _, hnodup, hnewName =>
    obtain ⟨m, hm, hmnew⟩ := hnewName item (List.mem_cons_self ..)
    obtain ⟨n, hn, hnnew⟩ := hnewName item' (by simp)
    have hname : itemName item = itemName item' := by rw [hm, hn, hnew m n hmnew hnnew]
    simp [hname] at hnodup

theorem MergeResult.first (o : KeyOrder String) (hload : Loads files program baseDir)
    (h : MergeResult files (o.first n) program baseDir p) (hn : NewName files program baseDir n) :
    ∃ item rest, itemName item = some n ∧
      p.items = (program.items.filter fun item => !item.isImport) ++ item :: rest := by
  obtain ⟨item, hwins⟩ := hload.exists_wins hn.1
  have hown : findNamed program.items n = none := findNamed_eq_none.2 hn.2
  rcases wins_iff.1 hwins with h' | ⟨-, hfirst⟩
  · rw [hown] at h'
    cases h'
  · rcases h with ⟨hempty, -⟩ | ⟨-, imported, hcollected, rfl⟩
    · rw [List.isEmpty_iff.1 hempty] at hfirst
      exact absurd hfirst firstOf_nil
    · have hitem := (hcollected.2 n item).2 hfirst
      have hkey : n ∈ imported.keys := by
        obtain ⟨e, he, -⟩ := Option.map_eq_some_iff.1 hitem
        rw [HashMap.mem_keys_iff, he]
        rfl
      have hnodup : ((o.first n).order imported.keys).Nodup :=
        ((o.first n).perm _).nodup_iff.2 imported.keys_nodup
      refine ⟨item, addedItems (program.items.filter fun item => !item.isImport) imported
        ((o.order imported.keys).erase n), hwins.itemName_eq,
        (foldl_pushMerged hcollected.1 _ hnodup).trans ?_⟩
      rw [KeyOrder.first_order hkey, addedItems, List.flatMap_cons, findNamed_filter, hown, hitem]
      rfl

variable [DecidableEq P]

theorem ResolvesFaithfully.mem_of_isBlock (h : ResolvesFaithfully files path program)
    (hread : files.read (files.canonicalize path) = .ok program)
    (hload : Loads files program (baseDirOf files (files.canonicalize path))) {q : P}
    (hq : ImportsFile files program (baseDirOf files (files.canonicalize path)) q)
    (hread' : files.read q = .ok p) {item : Item α} (hitem : item ∈ p.items)
    (hblock : item.isBlock) : item ∈ program.items := by
  obtain ⟨st, merged, hres, hmerged⟩ :=
    resolveFile_of_loads (fun _ => .id) hread hload
  obtain ⟨st', merged', hres', hfaithful⟩ := h.1 fun _ => .id
  rw [hres] at hres'
  cases hres'
  exact hmerged.merged.mem_of_isBlock hblock (hfaithful.blocks q p hq hread' item hitem hblock)

theorem ResolvesFaithfully.eq_of_newName (h : ResolvesFaithfully files path program)
    (hread : files.read (files.canonicalize path) = .ok program)
    (hload : Loads files program (baseDirOf files (files.canonicalize path)))
    (hm : NewName files program (baseDirOf files (files.canonicalize path)) m)
    (hn : NewName files program (baseDirOf files (files.canonicalize path)) n) : m = n := by
  obtain ⟨st, p, hres, hp⟩ :=
    resolveFile_of_loads (fun _ => KeyOrder.id.first m) hread hload
  obtain ⟨st', p', hres', hp'⟩ :=
    resolveFile_of_loads (fun _ => KeyOrder.id.first n) hread hload
  obtain ⟨item, rest, hname, hitems⟩ := hp.first _ hload hm
  obtain ⟨item', rest', hname', hitems'⟩ := hp'.first _ hload hn
  have hsame := h.2 _ _ st st' p p' hres hres'
  rw [hitems, hitems', List.append_cancel_left_eq, List.cons_eq_cons] at hsame
  rw [hsame.1, hname'] at hname
  exact (Option.some.inj hname).symm

/-- Resolution is faithful and reproducible iff the imported files have no blocks of their own, the
names of the root are distinct, and the imports bring at most one name. -/
theorem resolvesFaithfully_iff (hread : files.read (files.canonicalize path) = .ok program)
    (hload : Loads files program (baseDirOf files (files.canonicalize path))) :
    ResolvesFaithfully files path program ↔
      (∀ q program', ImportsFile files program (baseDirOf files (files.canonicalize path)) q →
        files.read q = .ok program' →
        ∀ item ∈ program'.items, item.isBlock → item ∈ program.items) ∧
      (program.items.filterMap itemName).Nodup ∧
      ∀ m n, NewName files program (baseDirOf files (files.canonicalize path)) m →
        NewName files program (baseDirOf files (files.canonicalize path)) n → m = n := by
  constructor
  · intro h
    refine ⟨fun q program' hq hread' item hitem hblock =>
      h.mem_of_isBlock hread hload hq hread' hitem hblock, ?_,
      fun m n hm hn => h.eq_of_newName hread hload hm hn⟩
    obtain ⟨st, p, hres, hp⟩ := resolveFile_of_loads (fun _ => .id) hread hload
    obtain ⟨st', p', hres', hfaithful⟩ := h.1 fun _ => .id
    rw [hres] at hres'
    cases hres'
    exact hp.merged.nodup_own hfaithful.once
  · rintro ⟨hblocks, hown, hnew⟩
    constructor
    · intro order
      obtain ⟨st, p, hres, hp⟩ := resolveFile_of_loads order hread hload
      exact ⟨st, p, hres, hp.merged.faithful hload hblocks hown⟩
    · intro order order' st st' p p' hres hres'
      obtain ⟨st₁, p₁, hres₁, hp₁⟩ := resolveFile_of_loads order hread hload
      obtain ⟨st₂, p₂, hres₂, hp₂⟩ := resolveFile_of_loads order' hread hload
      rw [hres₁] at hres
      rw [hres₂] at hres'
      cases hres
      cases hres'
      exact hp₁.merged.items_eq hp₂.merged hnew

/-- The root imports a file with a struct and its impl block. -/
def importingProgram : Program Nat := ⟨[.importDef "lib.vuma" []], (0, 20)⟩

def importedProgram : Program Nat := ⟨[.structDef "Point" 0, .implBlock 1], (0, 60)⟩

/-- The two files, with the parts of their paths. -/
def twoFiles : Files (List String) Nat where
  read path :=
    if path = ["src", "main.vuma"] then .ok importingProgram
    else if path = ["src", "lib.vuma"] then .ok importedProgram
    else .error .notFound
  canonicalize := id
  ofString path := [path]
  isAbsolute _ := false
  join dir path := dir ++ path
  parent path := if path = [] then none else some path.dropLast
  currentDir := ["src"]

theorem loads_twoFiles : Loads twoFiles importingProgram ["src"] := by
  refine .mk (fun _ => importedProgram) ?_ ?_ ?_
  · intro i hi
    obtain rfl : i = ⟨"lib.vuma", []⟩ := List.mem_singleton.1 hi
    rfl
  · intro i hi s hs
    obtain rfl : i = ⟨"lib.vuma", []⟩ := List.mem_singleton.1 hi
    cases hs
  · intro i _
    refine .mk (fun _ => importedProgram) ?_ ?_ ?_ <;> intro j hj <;> cases hj

/-- The root resolves as a source as it does as a file. -/
theorem resolveSource_twoFiles :
    (resolveSource twoFiles (fun _ => .id) .new (.ok importingProgram)
      (some ["src", "main.vuma"])).map Prod.snd =
      (resolveFile twoFiles (fun _ => .id) .new ["src", "main.vuma"]).map Prod.snd :=
  resolveSource_eq_resolveFile rfl rfl rfl

/-- The impl block of an imported file is lost. -/
theorem not_resolvesFaithfully_twoFiles :
    ¬ ResolvesFaithfully twoFiles ["src", "main.vuma"] importingProgram := by
  intro h
  have hmem : Item.implBlock 1 ∈ importingProgram.items :=
    h.mem_of_isBlock rfl loads_twoFiles (q := ["src", "lib.vuma"]) (p := importedProgram)
      (.direct (i := ⟨"lib.vuma", []⟩) (List.mem_singleton_self _)) rfl
      (List.mem_cons_of_mem _ (List.mem_singleton_self _)) rfl
  cases List.mem_singleton.1 hmem

theorem resolvesFaithfully_iff_twoFiles :
    ResolvesFaithfully twoFiles ["src", "main.vuma"] importingProgram ↔
      (∀ q program', ImportsFile twoFiles importingProgram ["src"] q →
        twoFiles.read q = .ok program' →
        ∀ item ∈ program'.items, item.isBlock → item ∈ importingProgram.items) ∧
      (importingProgram.items.filterMap itemName).Nodup ∧
      ∀ m n, NewName twoFiles importingProgram ["src"] m →
        NewName twoFiles importingProgram ["src"] n → m = n :=
  resolvesFaithfully_iff rfl loads_twoFiles

end Faithful

end Vuma.Parser
