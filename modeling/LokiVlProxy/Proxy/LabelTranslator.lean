/-
  Proxy/LabelTranslator.lean --- label names of the backend and of Loki.

  Source: internal/proxy/labels.go: LabelTranslator.ToLoki, LearnFieldAliases,
  forgetLearnedAlias, leafAliasChain, k8sContainerRank, leafAlias, aliasCandidates,
  TranslateLabelsMap, learnFieldAliasesFromMap, IsPassthrough, SanitizeLabelName.

  The translator learns aliases from the field names it meets.
-/
import LokiVlProxy.Proxy.StreamLabels

namespace LokiVlProxy.Proxy

open Foundation List KeyMap

inductive LabelStyle where
  | passthrough
  | underscores
  | other
  deriving DecidableEq, Repr

/-- The fields of a `LabelTranslator` that are set when it is made. -/
structure TranslatorConfig where
  style : LabelStyle
  vlToLoki : KeyMap Bytes Bytes
  lokiToVL : KeyMap Bytes Bytes

/-- The fields that it learns. -/
structure Learned where
  lokiToVL : KeyMap Bytes Bytes
  ambiguous : KeyMap Bytes Unit
  chains : KeyMap Bytes (List Bytes)
  vlToLoki : KeyMap Bytes Bytes

/-- `NewLabelTranslator` learns nothing yet. -/
def Learned.nothing : Learned := ⟨∅, ∅, ∅, ∅⟩

/-! ## Label names -/

/-- The characters of a label name. -/
def isLabelChar (c : Char) : Bool :=
  ('a' ≤ c && c ≤ 'z') || ('A' ≤ c && c ≤ 'Z') || ('0' ≤ c && c ≤ '9') || c = '_'

/-- `isValidLabelName`, behind its first check. -/
def validLabelChars (prevUnderscore : Bool) : Runes → Bool
  | [] => !prevUnderscore
  | r :: name =>
      Rune.is isLabelChar r &&
        if r = .point '_' then !prevUnderscore && validLabelChars true name
        else validLabelChars false name

def isValidLabelName (name : Runes) : Bool :=
  !(name.head?.any (Rune.is fun c => '0' ≤ c && c ≤ '9')) && validLabelChars false name

/-- The loop of `SanitizeLabelName`. -/
def sanitizeRunes (prevUnderscore : Bool) : Runes → Runes
  | [] => []
  | r :: name =>
      if Rune.is isLabelChar r && r ≠ .point '_' then r :: sanitizeRunes false name
      else if prevUnderscore then sanitizeRunes true name
      else .point '_' :: sanitizeRunes true name

def SanitizeLabelName (name : Bytes) : Bytes :=
  if name.isEmpty then bytes "key_empty"
  else if isValidLabelName (decode name) then name
  else
    match (sanitizeRunes false (decode name)).rdropWhile (· = .point '_') with
    | [] => bytes "key_empty"
    | r :: rest =>
        if Rune.is (fun c => '0' ≤ c && c ≤ '9') r then bytes "key_" ++ encode (r :: rest)
        else encode (r :: rest)

variable (config : TranslatorConfig) (learned : Learned)

def toLoki (vlField : Bytes) : Bytes :=
  match config.vlToLoki.find? vlField with
  | some mapped => mapped
  | none =>
      match config.style with
      | .underscores => (learned.vlToLoki.find? vlField).getD (SanitizeLabelName vlField)
      | _ => vlField

/-! ## Learning -/

def k8sLabelContainers : List Bytes :=
  ["kubernetes.pod_labels.", "kubernetes.namespace_labels.", "kubernetes.pod_annotations.",
    "kubernetes.namespace_annotations.", "kubernetes.labels."].map bytes

variable (field : Bytes)

/-- What stands behind the first container name that a field begins with, unless it is empty. -/
def leafOf : Option Bytes :=
  k8sLabelContainers.findSome? fun container =>
    if container.isPrefixOf field ∧ container.length < field.length then
      some (field.drop container.length)
    else none

def leafAlias : Bytes :=
  match leafOf field with
  | some leaf => SanitizeLabelName leaf
  | none => []

def k8sContainerRank : Nat := k8sLabelContainers.findIdx fun c => c.isPrefixOf field

variable (label : Bytes)

def leafAliasChain (bucket : List Bytes) : Option (List Bytes) :=
  if bucket.length < 2 then none
  else if bucket.all fun field => leafAlias field = label then
    some (bucket.insertionSort fun a b =>
      k8sContainerRank a < k8sContainerRank b ∨ k8sContainerRank a = k8sContainerRank b ∧ a ≤ b)
  else none

def aliasCandidates (known : List Bytes) : List Bytes :=
  (((toLoki config learned field) :: ((leafOf field).map SanitizeLabelName).toList).map
    trimSpaceBytes).filter (fun label => !label.isEmpty && label ≠ field && !known.contains label)
    |>.eraseDups

/-- Adds a field to the bucket of an alias. -/
def addToBucket (buckets : KeyMap Bytes (List Bytes)) (label : Bytes) : KeyMap Bytes (List Bytes) :=
  let bucket := (buckets.find? label).getD []
  buckets.insert label (if bucket.contains field then bucket else bucket ++ [field])

/-- The buckets of `LearnFieldAliases`. -/
def aliasBuckets (fields known : List Bytes) : KeyMap Bytes (List Bytes) :=
  fields.foldl (fun buckets field =>
    (aliasCandidates config learned field known).foldl (addToBucket field) buckets) ∅

/-- Takes a name back from the fields that are answered under it. -/
def unname (names : KeyMap Bytes Bytes) (field : Bytes) : KeyMap Bytes Bytes :=
  if (names.find? field).getD [] = label then names.erase field else names

def forgetLearnedAlias : Learned where
  lokiToVL := learned.lokiToVL.erase label
  ambiguous := learned.ambiguous
  chains := learned.chains.erase label
  vlToLoki :=
    ((learned.chains.find? label).getD []).foldl (unname label)
      ((learned.lokiToVL.find? label).toList.foldl (unname label) learned.vlToLoki)

/-- The labels that `knownUnderscoreToDot` maps. -/
def knownUnderscoreToDot : List Bytes :=
  ["service_name", "service_namespace", "service_version", "service_instance_id",
    "deployment_environment", "deployment_environment_name", "telemetry_sdk_name",
    "telemetry_sdk_language", "telemetry_sdk_version", "k8s_pod_name", "k8s_pod_uid",
    "k8s_namespace_name", "k8s_node_name", "k8s_container_name", "k8s_deployment_name",
    "k8s_daemonset_name", "k8s_statefulset_name", "k8s_replicaset_name", "k8s_job_name",
    "k8s_cronjob_name", "k8s_cluster_name", "cloud_provider", "cloud_platform", "cloud_region",
    "cloud_availability_zone", "cloud_account_id", "host_name", "host_id", "host_type", "host_arch",
    "process_pid", "process_executable_name", "process_executable_path", "process_command",
    "process_runtime_name", "process_runtime_version", "os_type", "os_version", "log_file_path",
    "log_file_name", "log_iostream", "net_host_name", "net_host_port", "net_peer_name",
    "net_peer_port", "container_id", "container_name", "container_runtime", "container_image_name",
    "container_image_tag"].map bytes

/-- An alias that several fields claim. -/
def learnShared (bucket : List Bytes) : Learned :=
  let forgotten := forgetLearnedAlias learned label
  match leafAliasChain label bucket with
  | some chain =>
      { forgotten with
        ambiguous := forgotten.ambiguous.erase label
        chains := forgotten.chains.insert label chain
        vlToLoki := chain.foldl (fun names field => names.insert field label) forgotten.vlToLoki }
  | none => { forgotten with ambiguous := forgotten.ambiguous.insert label () }

/-- An alias that one field claims, and no chain of fields. -/
def claimLabel (label candidate : Bytes) : Learned :=
  if (learned.lokiToVL.find? label).any (· ≠ candidate) then
    let forgotten := forgetLearnedAlias learned label
    { forgotten with ambiguous := forgotten.ambiguous.insert label () }
  else
    { learned with
      lokiToVL := learned.lokiToVL.insert label candidate
      vlToLoki := if label = leafAlias candidate then learned.vlToLoki.insert candidate label
        else learned.vlToLoki }

/-- An alias that one field claims. -/
def learnOwned (label candidate : Bytes) : Learned :=
  if (learned.ambiguous.find? label).isSome then learned
  else if (learned.chains.find? label).isSome then
    claimLabel (forgetLearnedAlias learned label) label candidate
  else claimLabel learned label candidate

/-- One round of the loop of `LearnFieldAliases` over the buckets. -/
def learnAlias (e : Bytes × List Bytes) : Learned :=
  if (config.lokiToVL.find? e.1).isSome || knownUnderscoreToDot.contains e.1 then learned
  else
    match e.2 with
    | [candidate] => learnOwned learned e.1 candidate
    | bucket => learnShared learned e.1 bucket

/-- A field name that is met owns its name. -/
def disown (name : Bytes) : Learned :=
  let forgotten := forgetLearnedAlias learned name
  { forgotten with ambiguous := forgotten.ambiguous.erase name }

def learnFieldAliases (order : LoopOrder) (learned : Learned) (fields : List Bytes) : Learned :=
  if config.style ≠ .underscores then learned
  else
    let known := (fields.map trimSpaceBytes).filter fun field => !field.isEmpty
    let buckets := aliasBuckets config learned known known
    (order.arrange buckets.toList).foldl (learnAlias config)
      ((order.arrange known).foldl disown learned)

def TranslatorConfig.isPassthrough : Bool :=
  config.style = .passthrough && config.vlToLoki.size = 0

/-- One round of the loop of `TranslateLabelsMap`. -/
def translateLabel (name : Bytes → Bytes) (result : Labels) (e : Bytes × Bytes) : Labels :=
  if !e.2.isEmpty || (labelText result (name e.1)).isEmpty then result.insert (name e.1) e.2
  else result

/-- `TranslateLabelsMap`: the translated labels, and what is learned from their names. -/
def translateLabelsMap (order : LoopOrder) (learned : Learned)
    (labels : Labels) : Labels × Learned :=
  let learned := learnFieldAliases config order learned (labels.entries.map Prod.fst)
  if config.isPassthrough then (labels, learned)
  else ((order.arrange labels.entries).foldl (translateLabel (toLoki config learned)) ∅, learned)

/-! ## What is learned -/

/-- Only fields of a Kubernetes label map are answered under a learned name. -/
def Learned.LeavesOnly : Prop :=
  ∀ field, (learned.vlToLoki.find? field).isSome → (leafOf field).isSome

theorem leavesOnly_nothing : Learned.nothing.LeavesOnly := by
  intro field h
  cases h

section Names

variable {names : KeyMap Bytes Bytes} {label field name : Bytes} {fields : List Bytes}

/-- Taking a name back leaves the other names, and no field in the list keeps it. -/
theorem find?_foldl_unname (h : (fields.foldl (unname label) names).find? field = some name) :
    names.find? field = some name ∧ (name = label → field ∉ fields) := by
  induction fields generalizing names with
  | nil => exact ⟨h, fun _ => not_mem_nil⟩
  | cons f fields ih =>
    obtain ⟨hname, hrest⟩ := ih h
    unfold unname at hname
    split at hname
    · rw [find?_erase] at hname
      split at hname
      · cases hname
      · next hne => exact ⟨hname, fun hlabel hmem => (mem_cons.mp hmem).elim hne (hrest hlabel)⟩
    · next hkept =>
      refine ⟨hname, fun hlabel hmem => (mem_cons.mp hmem).elim (fun heq => hkept ?_) (hrest hlabel)⟩
      rw [← heq, hname, hlabel, Option.getD_some]

theorem find?_foldl_insert
    (h : (fields.foldl (fun names field => names.insert field label) names).find? field =
      some name) : field ∈ fields ∧ name = label ∨ names.find? field = some name := by
  induction fields generalizing names with
  | nil => exact .inr h
  | cons f fields ih =>
    obtain ⟨hmem, hname⟩ | hname := ih h
    · exact .inl ⟨mem_cons_of_mem f hmem, hname⟩
    · rw [find?_insert] at hname
      split at hname
      · next heq => exact .inl ⟨heq ▸ mem_cons_self, (Option.some.inj hname).symm⟩
      · exact .inr hname

/-- The fields of a chain share the alias of the chain. -/
theorem leafAlias_of_mem_chain {bucket chain : List Bytes} (h : leafAliasChain label bucket = some chain)
    (hfield : field ∈ chain) : leafAlias field = label := by
  unfold leafAliasChain at h
  split at h
  · cases h
  · obtain ⟨hall, hsorted⟩ := Option.ite_none_right_eq_some.mp h
    rw [← Option.some.inj hsorted, mem_insertionSort] at hfield
    exact of_decide_eq_true (all_eq_true.mp hall field hfield)

theorem leafOf_isSome (halias : label ≠ []) (h : leafAlias field = label) :
    (leafOf field).isSome := by
  unfold leafAlias at h
  split at h
  · next leaf hleaf =>
    rw [hleaf]
    rfl
  · exact absurd h.symm halias

end Names

namespace Learned.LeavesOnly

variable {learned : Learned} {label : Bytes} (h : learned.LeavesOnly)

include h

theorem forget (label : Bytes) : (forgetLearnedAlias learned label).LeavesOnly := by
  intro field hfield
  obtain ⟨name, hname⟩ := Option.isSome_iff_exists.mp hfield
  have hbefore := (find?_foldl_unname (find?_foldl_unname hname).1).1
  exact h field (by rw [hbefore]; rfl)

theorem shared (halias : label ≠ []) (bucket : List Bytes) :
    (learnShared learned label bucket).LeavesOnly := by
  unfold learnShared
  dsimp only
  split
  · next chain hchain =>
    intro field hfield
    obtain ⟨name, hname⟩ := Option.isSome_iff_exists.mp hfield
    obtain ⟨hmem, -⟩ | hbefore := find?_foldl_insert hname
    · exact leafOf_isSome halias (leafAlias_of_mem_chain hchain hmem)
    · exact h.forget label field (by rw [hbefore]; rfl)
  · exact h.forget label

theorem claim (hlabel : label ≠ []) (candidate : Bytes) :
    (claimLabel learned label candidate).LeavesOnly := by
  unfold claimLabel
  split
  · exact h.forget label
  · intro field hfield
    dsimp only at hfield
    split at hfield
    · next hleaf =>
      rw [find?_insert] at hfield
      split at hfield
      · next heq =>
        rw [heq]
        exact leafOf_isSome hlabel hleaf.symm
      · exact h field hfield
    · exact h field hfield

theorem learn (config : TranslatorConfig) {e : Bytes × List Bytes} (he : e.1 ≠ []) :
    (learnAlias config learned e).LeavesOnly := by
  unfold learnAlias
  split
  · exact h
  · split
    · unfold learnOwned
      split
      · exact h
      · split
        · exact (h.forget _).claim he _
        · exact h.claim he _
    · exact h.shared he _

theorem disown (name : Bytes) : (disown learned name).LeavesOnly :=
  h.forget name

end Learned.LeavesOnly

/-! ## Buckets -/

variable {config : TranslatorConfig} {buckets : KeyMap Bytes (List Bytes)}

theorem ne_nil_of_mem_aliasCandidates {learned : Learned} {field : Bytes} {known : List Bytes}
    {label : Bytes} (h : label ∈ aliasCandidates config learned field known) : label ≠ [] := by
  rw [aliasCandidates, mem_eraseDups, mem_filter] at h
  rintro rfl
  exact absurd h.2 (by simp)

/-- No bucket belongs to the empty alias. -/
def Named (buckets : KeyMap Bytes (List Bytes)) : Prop := buckets.find? [] = none

theorem Named.add (h : Named buckets) (field : Bytes) {label : Bytes} (halias : label ≠ []) :
    Named (addToBucket field buckets label) := by
  rw [Named, addToBucket, find?_insert, if_neg halias.symm]
  exact h

theorem named_aliasBuckets (config : TranslatorConfig) (learned : Learned) (fields known : List Bytes) :
    Named (aliasBuckets config learned fields known) := by
  refine foldlRecOn fields _ (motive := Named) rfl fun buckets h field _ => ?_
  exact foldlRecOn _ _ (motive := Named) h fun buckets h label hlabel =>
    h.add field (ne_nil_of_mem_aliasCandidates hlabel)

/-- What one round of each loop keeps, a call keeps. -/
theorem learnFieldAliases_keeps {P : Learned → Prop} {learned : Learned} (h : P learned)
    (hdisown : ∀ l name, P l → P (disown l name))
    (hlearn : ∀ l e, e.1 ≠ [] → P l → P (learnAlias config l e)) (order : LoopOrder)
    (fields : List Bytes) : P (learnFieldAliases config order learned fields) := by
  unfold learnFieldAliases
  split
  · exact h
  · refine foldlRecOn _ _ (foldlRecOn _ _ h fun l hl name _ => hdisown l name hl) fun l hl e he => ?_
    refine hlearn l e ?_ hl
    obtain ⟨label, bucket⟩ := e
    rintro rfl
    rw [(order.perm _).mem_iff, mem_toList, named_aliasBuckets] at he
    cases he

/-- Learning from fields keeps the aliases to leaves. -/
theorem Learned.LeavesOnly.learnFieldAliases {learned : Learned} (h : learned.LeavesOnly)
    (config : TranslatorConfig) (order : LoopOrder) (fields : List Bytes) :
    (learnFieldAliases config order learned fields).LeavesOnly :=
  learnFieldAliases_keeps h (fun _ name hl => hl.disown name) (fun _ _ he hl => hl.learn config he) _ _

/-! ## Tables that agree -/

/-- The learned tables agree with one another and with the configured one. -/
structure Learned.Consistent (config : TranslatorConfig) (learned : Learned) : Prop where
  resolves : ∀ {field name}, learned.vlToLoki.find? field = some name → name = leafAlias field ∧
    (learned.lokiToVL.find? name = some field ∨
      ∃ chain, learned.chains.find? name = some chain ∧ field ∈ chain)
  single : ∀ {name}, (learned.lokiToVL.find? name).isSome → learned.chains.find? name = none
  unlearned : ∀ {name},
    (learned.ambiguous.find? name).isSome ∨ (config.lokiToVL.find? name).isSome →
      learned.lokiToVL.find? name = none ∧ learned.chains.find? name = none

namespace Learned.Consistent

variable {learned : Learned} {label : Bytes} (h : learned.Consistent config)

include h

theorem forgotten {field name : Bytes}
    (hname : (forgetLearnedAlias learned label).vlToLoki.find? field = some name) :
    learned.vlToLoki.find? field = some name ∧ name ≠ label := by
  obtain ⟨hsingle, hchain⟩ := find?_foldl_unname hname
  obtain ⟨hbefore, hone⟩ := find?_foldl_unname hsingle
  refine ⟨hbefore, ?_⟩
  rintro rfl
  obtain hback | ⟨chain, hback, hmem⟩ := (h.resolves hbefore).2
  · exact hone rfl (by simp [hback])
  · exact hchain rfl (by simpa [hback] using hmem)

/-- A forgotten alias may be marked or not. -/
theorem forget {marks : KeyMap Bytes Unit} (hmarks : ∀ name, (marks.find? name).isSome →
      name = label ∨ (learned.ambiguous.find? name).isSome) :
    Consistent config { forgetLearnedAlias learned label with ambiguous := marks } := by
  refine ⟨fun hname => ?_, ?_, ?_⟩
  · obtain ⟨hbefore, hne⟩ := h.forgotten hname
    simpa [forgetLearnedAlias, find?_erase, hne] using h.resolves hbefore
  all_goals grind [forgetLearnedAlias, find?_erase, h.single, h.unlearned]

theorem shared (hfree : config.lokiToVL.find? label = none) (bucket : List Bytes) :
    Consistent config (learnShared learned label bucket) := by
  unfold learnShared
  dsimp only
  split
  · next chain hchain =>
    have hforget : Consistent config (forgetLearnedAlias learned label) := h.forget fun _ => .inr
    have hgone : (forgetLearnedAlias learned label).lokiToVL.find? label = none := by
      simp [forgetLearnedAlias, find?_erase]
    refine ⟨fun hname => ?_, ?_, ?_⟩
    · obtain ⟨hmem, rfl⟩ | hbefore := find?_foldl_insert hname
      · exact ⟨(leafAlias_of_mem_chain hchain hmem).symm,
          .inr ⟨chain, find?_insert_self _ _ _, hmem⟩⟩
      · simpa [find?_insert, (h.forgotten hbefore).2] using hforget.resolves hbefore
    all_goals grind [find?_insert, find?_erase, hforget.single, hforget.unlearned]
  · exact h.forget fun name hmark => by grind [find?_insert, forgetLearnedAlias]

theorem claim (hfree : config.lokiToVL.find? label = none)
    (hunmarked : learned.ambiguous.find? label = none)
    (hchain : learned.chains.find? label = none) (candidate : Bytes) :
    Consistent config (claimLabel learned label candidate) := by
  unfold claimLabel
  split
  · exact h.forget fun name hmark => by grind [find?_insert, forgetLearnedAlias]
  · refine ⟨?_, ?_, ?_⟩ <;> grind [find?_insert, h.resolves, h.single, h.unlearned]

theorem learn (e : Bytes × List Bytes) : Consistent config (learnAlias config learned e) := by
  unfold learnAlias
  split
  · exact h
  · next hfree =>
    have hfree : config.lokiToVL.find? e.1 = none := by simp_all
    split
    · unfold learnOwned
      split
      · exact h
      · next hunmarked =>
        have hunmarked := Option.not_isSome_iff_eq_none.mp hunmarked
        split
        · have hforget : Consistent config (forgetLearnedAlias learned e.1) := h.forget fun _ => .inr
          exact hforget.claim hfree hunmarked (by simp [forgetLearnedAlias, find?_erase]) _
        · next hchain => exact h.claim hfree hunmarked (Option.not_isSome_iff_eq_none.mp hchain) _
    · exact h.shared hfree _

end Learned.Consistent

/-- The learned tables agree after any calls, in whichever order their loops run. -/
theorem consistent_learned (config : TranslatorConfig) (calls : List (LoopOrder × List Bytes)) :
    Learned.Consistent config
      (calls.foldl (fun learned call => learnFieldAliases config call.1 learned call.2) .nothing) := by
  refine foldlRecOn calls _ ⟨nofun, nofun, fun _ => ⟨rfl, rfl⟩⟩ fun learned h call _ => ?_
  refine learnFieldAliases_keeps h (fun l name hl => ?_) (fun l e _ hl => hl.learn e) _ _
  exact hl.forget fun other hmark => by grind [KeyMap.find?_erase, forgetLearnedAlias]

/-- A field that is no leaf is translated as if nothing had been learned. -/
theorem toLoki_eq_of_leafOf_none {learned : Learned} (h : learned.LeavesOnly) {field : Bytes}
    (hfield : leafOf field = none) :
    toLoki config learned field = toLoki config .nothing field := by
  have hunnamed : learned.vlToLoki.find? field = none := by
    by_contra hsome
    have := h field (Option.isSome_iff_ne_none.mpr hsome)
    rw [hfield] at this
    cases this
  unfold toLoki
  rw [hunnamed]
  rfl

end LokiVlProxy.Proxy
