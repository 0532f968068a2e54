import Localization.Proofs.Bundle.Declared
import Localization.Proofs.Catalog.Insertion
import Localization.Proofs.Discovery.FileName

namespace Localization

namespace Generation

namespace Directory

variable {d d' : Directory} {i : Interface} {c c' : Catalog}

/-- The bundle of one of the interface's files. -/
def bundleOf (d : Directory) (i : Interface) : String × FileContent → Except Error Bundle
  | (name, .unreadable) => .error (.unreadable (d.location ++ name))
  | (name, .text text) => (i.bundleOfFile name text).mapError .resource

theorem bundleOf_text_eq_ok_iff {name text : String} {b : Bundle} :
    d.bundleOf i (name, .text text) = .ok b ↔
      ∃ t, i.localeOfName name = .ok t ∧ Bundle.ofProperties i t (some name) text = .ok b := by
  rw [bundleOf, mapError_eq_ok_iff, Interface.bundleOfFile, bind_eq_ok_iff]

theorem addFile_eq_ok_iff (file : String × FileContent) : d.addFile c file = .ok c' ↔
    ∃ b, d.bundleOf c.interface file = .ok b ∧ c.insert b = .ok c' := by
  obtain ⟨name, content⟩ := file
  cases content with
  | unreadable => simp [addFile, bundleOf]
  | text text =>
    rw [addFile, mapError_eq_ok_iff, bind_eq_ok_iff]
    simp only [bundleOf, mapError_eq_ok_iff]

/-- Files that are added one after the other have a bundle each, and these can be inserted. -/
theorem foldlM_addFile_eq_ok_iff (files : List (String × FileContent)) :
    files.foldlM d.addFile c = .ok c' ↔
      ∃ bs, List.Forall₂ (fun file b => d.bundleOf c.interface file = .ok b) files bs ∧
        bs.foldlM Catalog.insert c = .ok c' := by
  induction files generalizing c with
  | nil => simp [pure, Except.pure]
  | cons file files ih =>
    rw [List.foldlM_cons, bind_eq_ok_iff]
    constructor
    · rintro ⟨added, hadd, hrest⟩
      obtain ⟨b, hb, hinsert⟩ := (addFile_eq_ok_iff file).1 hadd
      obtain ⟨bs, hbs, hfold⟩ := ih.1 hrest
      rw [(Catalog.insert_eq_ok_iff.1 hinsert).2.1] at hbs
      exact ⟨b :: bs, .cons hb hbs, bind_eq_ok_iff.2 ⟨added, hinsert, hfold⟩⟩
    · rintro ⟨_, hall, hfold⟩
      obtain ⟨b, bs, hb, hbs, rfl⟩ := List.forall₂_cons_left_iff.1 hall
      obtain ⟨added, hinsert, hfold⟩ := bind_eq_ok_iff.1 hfold
      rw [← (Catalog.insert_eq_ok_iff.1 hinsert).2.1] at hbs
      exact ⟨added, (addFile_eq_ok_iff file).2 ⟨b, hb, hinsert⟩, ih.2 ⟨bs, hbs, hfold⟩⟩

/-- A folder is loaded as the catalog of the bundles of the interface's files. -/
theorem catalog_eq_ok_iff : d.catalog i = .ok c ↔
    ∃ bs, List.Forall₂ (fun file b => d.bundleOf i file = .ok b) (d.resourcesOf i) bs ∧
      Catalog.ofList i bs = .ok c :=
  foldlM_addFile_eq_ok_iff (c := .empty i) (d.resourcesOf i)

theorem ofDirectory_eq_ok_iff {kind : Kind} {job : Job} :
    Job.ofDirectory kind i d = .ok job ↔ ∃ c, d.catalog i = .ok c ∧ job = ⟨kind, c⟩ := by
  rw [Job.ofDirectory, bind_eq_ok_iff]
  simp [pure, Except.pure, eq_comm]

theorem mem_resourcesOf {file : String × FileContent} :
    file ∈ d.resourcesOf i ↔ file ∈ d.files ∧ isResourceOf i file.1 := by
  simp [resourcesOf]

theorem perm_resourcesOf (d : Directory) (i : Interface) :
    (d.resourcesOf i).Perm (d.files.filter fun file => isResourceOf i file.1) :=
  List.mergeSort_perm _ _

/-- As no name is listed twice, the files are in the same order for each listing. -/
theorem resourcesOf_of_perm (hperm : d.files.Perm d'.files) (hnodup : (d.files.map (·.1)).Nodup) :
    d.resourcesOf i = d'.resourcesOf i := by
  have hsorted (d : Directory) : (d.resourcesOf i).Pairwise fun a b => a.1 ≤ b.1 := by
    have htrans (a b c : String × FileContent) (hab : decide (a.1 ≤ b.1) = true)
        (hbc : decide (b.1 ≤ c.1) = true) : decide (a.1 ≤ c.1) = true :=
      decide_eq_true (String.le_trans (of_decide_eq_true hab) (of_decide_eq_true hbc))
    have htotal (a b : String × FileContent) : decide (a.1 ≤ b.1) || decide (b.1 ≤ a.1) := by
      simpa using String.le_total a.1 b.1
    have hpairwise : (d.resourcesOf i).Pairwise fun a b => decide (a.1 ≤ b.1) = true :=
      List.pairwise_mergeSort htrans htotal _
    exact hpairwise.imp of_decide_eq_true
  have hresources : (d.resourcesOf i).Perm (d'.resourcesOf i) :=
    ((perm_resourcesOf d i).trans (hperm.filter _)).trans (perm_resourcesOf d' i).symm
  refine hresources.eq_of_pairwise (fun a b ha hb hab hba => ?_) (hsorted d) (hsorted d')
  have hb' : b ∈ d.files := hperm.mem_iff.2 (mem_resourcesOf.1 hb).1
  exact List.inj_on_of_nodup_map hnodup (mem_resourcesOf.1 ha).1 hb' (String.le_antisymm hab hba)

theorem catalog_of_perm (hlocation : d.location = d'.location) (hperm : d.files.Perm d'.files)
    (hnodup : (d.files.map (·.1)).Nodup) : d.catalog i = d'.catalog i := by
  have hadd : d.addFile = d'.addFile := by
    funext c file
    obtain ⟨name, content⟩ := file
    cases content <;> simp only [addFile, hlocation]
  rw [catalog, catalog, resourcesOf_of_perm hperm hnodup, hadd]

/-! A folder that was written -/

/-- The file of a locale's text, under the name of the locale's resource. -/
def resourceFile (i : Interface) (resource : Locale × String) : String × FileContent :=
  (i.resourceName resource.1 Interface.propertiesExtension, .text resource.2)

theorem perm_resourcesOf_written (hname : i.simpleName ≠ "") {family : List (Locale × String)}
    {others : List (String × FileContent)} (hothers : ∀ file ∈ others, ¬isResourceOf i file.1)
    (hfiles : d.files.Perm (family.map (resourceFile i) ++ others)) :
    (d.resourcesOf i).Perm (family.map (resourceFile i)) := by
  have hfamily : (family.map (resourceFile i)).filter (fun file => isResourceOf i file.1) =
      family.map (resourceFile i) := by
    refine List.filter_eq_self.2 fun file hfile => ?_
    obtain ⟨resource, -, rfl⟩ := List.mem_map.1 hfile
    exact isResourceOf_resourceName hname resource.1
  have hnone : others.filter (fun file => isResourceOf i file.1) = [] :=
    List.filter_eq_nil_iff.2 hothers
  have hfilter := hfiles.filter fun file => isResourceOf i file.1
  rw [List.filter_append, hfamily, hnone, List.append_nil] at hfilter
  exact (perm_resourcesOf d i).trans hfilter

theorem bundleOf_resourceFile_eq_ok_iff (hsimple : ∀ c ∈ i.simpleName.toList, ¬Interface.IsFolderEnd c)
    {resource : Locale × String} (h : Locale.parse resource.1.name = .ok resource.1) {b : Bundle} :
    d.bundleOf i (resourceFile i resource) = .ok b ↔
      Bundle.ofProperties i resource.1
        (some (i.resourceName resource.1 Interface.propertiesExtension)) resource.2 = .ok b := by
  have hlocale := Interface.localeOfName_resourceName hsimple h "" (.inl rfl)
  rw [String.empty_append] at hlocale
  rw [resourceFile, bundleOf_text_eq_ok_iff, hlocale]
  simp

/-- The texts of different locales give bundles that fit into one catalog. -/
theorem exists_bundles_of_family {family : List (Locale × String)}
    (hnodup : (family.map (·.1)).Nodup) (source? : Locale → Option String)
    (hfamily : ∀ resource ∈ family, ∃ b, Bundle.ofProperties i resource.1 none resource.2 = .ok b) :
    ∃ bs, List.Forall₂ (fun resource b =>
        Bundle.ofProperties i resource.1 (source? resource.1) resource.2 = .ok b) family bs ∧
      Catalog.Compatible i bs ∧ bs.map (·.locale) = family.map (·.1) := by
  obtain ⟨bs, hbs⟩ : ∃ bs, family.mapM (fun resource =>
      Bundle.ofProperties i resource.1 (source? resource.1) resource.2) = .ok bs := by
    refine exists_mapM_eq_ok fun resource hresource => ?_
    obtain ⟨b, hb⟩ := hfamily resource hresource
    exact ⟨_, Bundle.ofProperties_of_source hb (source? resource.1)⟩
  have hforall := mapM_eq_ok_iff.1 hbs
  have hlocales : bs.map (·.locale) = family.map (·.1) := by
    clear hnodup hfamily hbs
    induction hforall with
    | nil => rfl
    | cons hb _ ih => rw [List.map_cons, List.map_cons, ih, (Bundle.belongs_of_ofProperties hb).2.1]
  refine ⟨bs, hforall, ⟨fun b hb => ?_, hlocales ▸ hnodup⟩, hlocales⟩
  obtain ⟨resource, -, hresource⟩ := exists_of_mem_mapM hbs hb
  exact (Bundle.belongs_of_ofProperties hresource).1

/-- What was written is loaded: each locale has the bundle of its text, and no other locale has
one. -/
theorem exists_catalog_of_written (hname : i.simpleName ≠ "")
    (hsimple : ∀ c ∈ i.simpleName.toList, ¬Interface.IsFolderEnd c)
    {family : List (Locale × String)} (hnodup : (family.map (·.1)).Nodup)
    (hfamily : ∀ resource ∈ family, Locale.parse resource.1.name = .ok resource.1 ∧
      ∃ b, Bundle.ofProperties i resource.1 none resource.2 = .ok b)
    {others : List (String × FileContent)} (hothers : ∀ file ∈ others, ¬isResourceOf i file.1)
    (hfiles : d.files.Perm (family.map (resourceFile i) ++ others)) :
    ∃ c, d.catalog i = .ok c ∧ c.interface = i ∧ (∀ t, t ∈ c.locales ↔ t ∈ family.map (·.1)) ∧
      ∀ resource ∈ family, ∀ b, Bundle.ofProperties i resource.1 none resource.2 = .ok b →
        c.get? resource.1 = some { b with
          source? := some (i.resourceName resource.1 Interface.propertiesExtension) } := by
  obtain ⟨bs, hbs, hcompatible, hlocales⟩ := exists_bundles_of_family hnodup
    (fun t => some (i.resourceName t Interface.propertiesExtension))
    fun resource hresource => (hfamily resource hresource).2
  have hfiled : List.Forall₂ (fun file b => d.bundleOf i file = .ok b)
      (family.map (resourceFile i)) bs := by
    have hparsed := (List.forall₂_and_left family bs).2
      ⟨fun resource hresource => (hfamily resource hresource).1, hbs⟩
    exact List.forall₂_map_left_iff.2 <| hparsed.imp fun _ _ h =>
      (bundleOf_resourceFile_eq_ok_iff hsimple h.1).2 h.2
  -- The files are read in the order of their names, which does not matter for what they make.
  obtain ⟨bs', hbs', hperm⟩ :=
    List.perm_comp_forall₂ (perm_resourcesOf_written hname hothers hfiles) hfiled
  have hcompatible' := (Catalog.Compatible.perm hperm).2 hcompatible
  have hget := hcompatible'.get?_eq_some_iff
  refine ⟨_, catalog_eq_ok_iff.2 ⟨bs', hbs', (Catalog.ofList_eq_ok_iff i bs' _).2 ⟨hcompatible', rfl⟩⟩,
    Catalog.interface_afterInsertions _ _, fun t => ?_, fun resource hresource b hb => ?_⟩
  · rw [Catalog.locales, SortedMap.mem_keys_iff, Option.isSome_iff_exists, ← hlocales,
      List.mem_map]
    exact exists_congr fun b => (hget t b).trans (and_congr_left' hperm.mem_iff)
  · obtain ⟨b', hmem, hb'⟩ := exists_result_of_mem (mapM_eq_ok_iff.2 hbs) hresource
    rw [Bundle.ofProperties_of_source hb] at hb'
    obtain rfl := Except.ok.inj hb'
    exact (hget _ _).2 ⟨hperm.mem_iff.2 hmem, (Bundle.belongs_of_ofProperties hb).2.1⟩

/-- No two locales have resources of one name. -/
theorem nodup_resourceNames (hsimple : ∀ c ∈ i.simpleName.toList, ¬Interface.IsFolderEnd c)
    {family : List (Locale × String)} (hnodup : (family.map (·.1)).Nodup)
    (hfamily : ∀ resource ∈ family, Locale.parse resource.1.name = .ok resource.1) :
    (family.map fun resource =>
      i.resourceName resource.1 Interface.propertiesExtension).Nodup := by
  have hlocale : ∀ resource ∈ family,
      i.localeOfName ("" ++ i.resourceName resource.1 Interface.propertiesExtension) =
        .ok resource.1 :=
    fun resource hresource =>
      Interface.localeOfName_resourceName hsimple (hfamily resource hresource) "" (.inl rfl)
  refine hnodup.of_map _ |>.map_on fun resource hresource other hother heq => ?_
  have hsame := hlocale resource hresource
  rw [heq, hlocale other hother] at hsame
  exact List.inj_on_of_nodup_map hnodup hresource hother (Except.ok.inj hsame).symm

end Directory

/-- A folder with a file for each of some locales, under the name of the locale's resource, and with
any other files that are not the interface's, is loaded in whatever order it lists them: there is a
bundle for each of the locales and for no other, with the entries of the text and the file's name.
The locale is found in the name, with or without folders in front of it, so that the names are
different. What comes out of any folder, a job or an error, does not depend on its order. -/
theorem ofDirectory_of_written :
    (∀ (i : Interface), i.simpleName ≠ "" → (∀ c ∈ i.simpleName.toList, c ≠ '/' ∧ c ≠ '\\') →
      ∀ family : List (Locale × String), (family.map (·.1)).Nodup →
      (∀ resource ∈ family, Locale.parse resource.1.name = .ok resource.1) →
      (family.map fun resource => i.resourceName resource.1 "properties").Nodup ∧
      (∀ resource ∈ family, ∀ folder : String,
        folder = "" ∨ (∃ path, folder = path ++ "/" ∨ folder = path ++ "\\") →
        i.localeOfName (folder ++ i.resourceName resource.1 "properties") = .ok resource.1) ∧
      ((∀ resource ∈ family, ∃ b, Bundle.ofProperties i resource.1 none resource.2 = .ok b) →
        ∀ (kind : Kind) (d : Directory) (others : List (String × FileContent)),
        (∀ file ∈ others, ¬isResourceOf i file.1) →
        d.files.Perm ((family.map fun resource =>
          (i.resourceName resource.1 "properties", .text resource.2)) ++ others) →
        ∃ c, Job.ofDirectory kind i d = .ok ⟨kind, c⟩ ∧ c.interface = i ∧
          (∀ t, t ∈ c.locales ↔ t ∈ family.map (·.1)) ∧
          ∀ resource ∈ family, ∀ b, Bundle.ofProperties i resource.1 none resource.2 = .ok b →
            c.get? resource.1 =
              some { b with source? := some (i.resourceName resource.1 "properties") })) ∧
    ∀ (kind : Kind) (i : Interface) (d d' : Directory), d.location = d'.location →
      d.files.Perm d'.files → (d.files.map (·.1)).Nodup →
      Job.ofDirectory kind i d = Job.ofDirectory kind i d' := by
  refine ⟨fun i hname hplain family hnodup hparse => ?_, fun kind i d d' hlocation hperm hnodup => ?_⟩
  · have hsimple : ∀ c ∈ i.simpleName.toList, ¬Interface.IsFolderEnd c := by
      rintro c hc (rfl | rfl)
      · exact (hplain _ hc).1 rfl
      · exact (hplain _ hc).2 rfl
    refine ⟨Directory.nodup_resourceNames hsimple hnodup hparse,
      fun resource hresource folder hfolder => ?_, fun hbundles kind d others hothers hfiles => ?_⟩
    · refine Interface.localeOfName_resourceName hsimple (hparse resource hresource) folder ?_
      refine hfolder.imp_right ?_
      rintro ⟨path, rfl | rfl⟩
      · exact ⟨path, '/', rfl, .inl rfl⟩
      · exact ⟨path, '\\', rfl, .inr rfl⟩
    · obtain ⟨c, hc, hinterface, hlocales, hget⟩ := Directory.exists_catalog_of_written hname hsimple
        hnodup (fun resource hresource => ⟨hparse resource hresource, hbundles resource hresource⟩)
        hothers hfiles
      exact ⟨c, Directory.ofDirectory_eq_ok_iff.2 ⟨c, hc, rfl⟩, hinterface, hlocales, hget⟩
  · rw [Job.ofDirectory, Job.ofDirectory, Directory.catalog_of_perm hlocation hperm hnodup]

/-- Resources of `Messages` for root and `az_Cyrl` among other files, in two orders. -/
theorem ofDirectory_of_written_Messages :
    let i : Interface := ⟨"org.app.Messages"⟩
    let cyrillic : Locale := { language := "az", script := "Cyrl" }
    let root := ("Messages.properties", FileContent.text "title=Home")
    let az := ("Messages_az_Cyrl.properties", FileContent.text "title=Ev")
    let others := [("Labels_az.properties", FileContent.text "ok=Oldu"), ("Messages.old", .unreadable)]
    (∀ file ∈ others, ¬isResourceOf i file.1) ∧
      ∃ c, Job.ofDirectory .messages i ⟨"", [root, az] ++ others⟩ = .ok ⟨.messages, c⟩ ∧
        Job.ofDirectory .messages i ⟨"", others ++ [az, root]⟩ = .ok ⟨.messages, c⟩ ∧
        (∀ t, t ∈ c.locales ↔ t = .root ∨ t = cyrillic) ∧
        ((c.get? cyrillic).bind fun b => b.source?) = some "Messages_az_Cyrl.properties" ∧
        i.localeOfName "org/app/Messages_az_Cyrl.properties" = .ok cyrillic := by
  intro i cyrillic root az others
  let family := [(Locale.root, "title=Home"), (cyrillic, "title=Ev")]
  have hothers : ∀ file ∈ others, ¬isResourceOf i file.1 := by decide +kernel
  have hparse : ∀ resource ∈ family, Locale.parse resource.1.name = .ok resource.1 := by decide +kernel
  have hread : ∀ resource ∈ family,
      (Bundle.ofProperties i resource.1 none resource.2).isOk := by decide +kernel
  have hbundles : ∀ resource ∈ family,
      ∃ b, Bundle.ofProperties i resource.1 none resource.2 = .ok b :=
    fun resource hresource => exists_of_isOk (hread resource hresource)
  have haz : (cyrillic, "title=Ev") ∈ family := by simp [family]
  obtain ⟨hload, horder⟩ := ofDirectory_of_written
  have hsimple : i.simpleName = "Messages" := by decide +kernel
  obtain ⟨-, hlocale, hload⟩ := hload i (by rw [hsimple]; decide) (by rw [hsimple]; simp) family
    (by decide) hparse
  have hnames : i.resourceName .root "properties" = root.1 ∧
      i.resourceName cyrillic "properties" = az.1 := by decide +kernel
  obtain ⟨c, hc, -, hlocales, hget⟩ := hload hbundles .messages ⟨"", [root, az] ++ others⟩ others
    hothers (by simp [family, hnames, root, az])
  have hsame := horder .messages i ⟨"", [root, az] ++ others⟩ ⟨"", others ++ [az, root]⟩ rfl
    (by decide) (by decide)
  refine ⟨hothers, c, hc, hsame ▸ hc, fun t => ?_, ?_, ?_⟩
  · simpa [family] using hlocales t
  · obtain ⟨b, hb⟩ := hbundles _ haz
    rw [hget _ haz b hb]
    exact congrArg some hnames.2
  · have hfolder := hlocale _ haz "org/app/" (.inr ⟨"org/app", .inl rfl⟩)
    rwa [hnames.2] at hfolder

end Generation

end Localization
