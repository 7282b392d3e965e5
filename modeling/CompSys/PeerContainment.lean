import CompSys.PeerFile
import CompSys.PosixPath

/-!
# The directory that a Python peer of A4 serves files from

`_handle_request` compares the text of the absolute path with the text of the working directory.
-/
namespace CompSys.Peer

open PythonText PosixPath

/-- The peer runs in the directory with these names above it and its own one. A directory is not
a file. -/
structure WorksIn (env : Surroundings) (directory : List Path) : Prop where
  getcwd : env.files.getcwd.toList = rooted directory
  abspath : ∀ path, (env.files.abspath path).toList =
    PosixPath.abspath (rooted directory) path.toList
  not_isFile : ∀ path, components path.toList = directory → env.files.isFile path = false

/-- The names of the absolute path of what is asked for. -/
def asked (directory : List Path) (path : String) : List Path :=
  components (PosixPath.abspath (rooted directory) path.toList)

/-- The file is read and sent. -/
def SendsFile (env : Surroundings) (path : String) (s : Session) : Prop :=
  ∃ sent, (handleRequest env (encode path) s).1.sent = s.sent ++ [sent] ∧ sent.status = STATUS_OK

theorem reply_sent_status {env : Surroundings} {status : ℕ} {toSend : Bytes} {s : Session}
    {sent : Sent} (h : (reply env status toSend s).1.sent = s.sent ++ [sent]) :
    sent.status = status := by
  rw [reply] at h
  dsimp only at h
  split at h
  · exact absurd (congrArg List.length h) (by simp)
  · obtain ⟨-, hsent⟩ := List.append_inj' h rfl
    exact (congrArg Sent.status (List.singleton_injective hsent)).symm

/-- What has been passed on the way to the file. -/
theorem passed_of_sendsFile {env : Surroundings} {path : String} {s : Session}
    (h : SendsFile env path s) : env.files.getcwd.toList <+: (env.files.abspath path).toList ∧
      env.files.isFile (env.files.abspath path) = true := by
  obtain ⟨sent, hsent, hstatus⟩ := h
  have hrefused : ∀ msgStr, (handleError env STATUS_BAD_REQUEST msgStr s).1.sent ≠
      s.sent ++ [sent] := by
    intro msgStr h
    rw [reply_sent_status h] at hstatus
    exact absurd hstatus (by decide)
  rw [handleRequest, decodeUtf8_encode] at hsent
  dsimp only at hsent
  split at hsent
  case isTrue => exact absurd hsent (hrefused _)
  case isFalse hinside =>
    split at hsent
    case isTrue => exact absurd hsent (hrefused _)
    case isFalse =>
      split at hsent
      case isTrue => exact absurd hsent (hrefused _)
      case isFalse hfile => exact ⟨not_not.mp hinside, not_not.mp hfile⟩

/-! ## The check -/

/-- The path leads to another entry beside the working directory, with a longer name that starts
with the name of the directory, or to something in it. Two slashes in front lead nowhere. -/
def LeadsBeside (directory : List Path) (path : String) : Prop :=
  initialSlashes path.toList ≠ 2 ∧ BesidesAs directory (asked directory path)

section Containment

variable {directory : List Path} (hdirectory : ∀ name ∈ directory, IsName name)
include hdirectory

theorem startsWith_of_sendsFile {env : Surroundings} (henv : WorksIn env directory) {path : String}
    {s : Session} (h : SendsFile env path s) :
    (directory = [] ∨ initialSlashes path.toList ≠ 2 ∧ StartsWith directory (asked directory path)) ∧
      directory ≠ asked directory path := by
  obtain ⟨hfront, hfile⟩ := passed_of_sendsFile h
  rw [henv.getcwd, henv.abspath] at hfront
  refine ⟨(rooted_prefix_iff hdirectory path.toList).mp hfront, fun hsame => ?_⟩
  rw [henv.not_isFile] at hfile
  · cases hfile
  · rw [henv.abspath]
    exact hsame.symm

theorem inside_of_sendsFile {env : Surroundings} (henv : WorksIn env directory) {path : String}
    {s : Session} (hbeside : ¬LeadsBeside directory path) (h : SendsFile env path s) :
    Inside directory (asked directory path) := by
  obtain ⟨hstarts, hne⟩ := startsWith_of_sendsFile hdirectory henv h
  refine ⟨?_, hne⟩
  by_cases hroot : directory = []
  · rw [hroot]
    exact List.nil_prefix
  · obtain ⟨hslashes, hstarts⟩ := hstarts.resolve_left hroot
    rcases (startsWith_iff hroot).mp hstarts with hfront | hbesides
    · exact hfront
    · exact absurd ⟨hslashes, hbesides⟩ hbeside

end Containment

/-- A peer in the directory, where everything but the directory is an empty file. -/
def everywhere (directory : List Path) : Surroundings :=
  { oneFile [] with
    files := {
      getcwd := String.ofList (rooted directory)
      abspath := fun path => String.ofList (PosixPath.abspath (rooted directory) path.toList)
      pathExists := fun _ => true
      isFile := fun path => components path.toList ≠ directory
      contents := fun _ => .ok [] } }

theorem everywhere_worksIn (directory : List Path) : WorksIn (everywhere directory) directory where
  getcwd := String.toList_ofList
  abspath _ := String.toList_ofList
  not_isFile _ h := decide_eq_false (not_not.mpr h)

theorem everywhere_serves {directory : List Path} (hdirectory : ∀ name ∈ directory, IsName name)
    {path : String} (h : LeadsBeside directory path) :
    Serves (everywhere directory) path [] where
  inside := by
    rw [(everywhere_worksIn directory).getcwd, (everywhere_worksIn directory).abspath,
      rooted_prefix_iff hdirectory]
    refine .inr ⟨h.1, ?_⟩
    obtain ⟨front, last, more, rest, -, hp, hq⟩ := h.2
    exact ⟨front, last, more, rest, hp, hq⟩
  pathExists := rfl
  isFile := by
    refine decide_eq_true fun hsame => not_prefix_of_besidesAs h.2 ?_
    rw [(everywhere_worksIn directory).abspath] at hsame
    rw [asked, hsame]
  finished := List.not_mem_nil
  contents := rfl

theorem everywhere_sendsFile {directory : List Path} (hdirectory : ∀ name ∈ directory, IsName name)
    {path : String} (h : LeadsBeside directory path) :
    SendsFile (everywhere directory) path ⟨[], []⟩ := by
  have hread : readText [] = .ok "" := by decide +kernel
  rw [SendsFile, handleRequest_serves _ (everywhere_serves hdirectory h) hread]
  rcases reply_cases (everywhere directory) STATUS_OK (by decide) (encode "") ⟨[], []⟩ with
    ⟨-, messages, -, hreply⟩ | ⟨hlong, -⟩
  · rw [hreply]
    exact ⟨_, rfl, rfl⟩
  · exact absurd (by decide +kernel) hlong

/-- Only files in the working directory are sent, whatever there is on the disk, exactly if the
path does not lead to a neighbour with a longer name. -/
theorem contained_iff {directory : List Path} (hdirectory : ∀ name ∈ directory, IsName name)
    (path : String) :
    (∀ env s, WorksIn env directory → SendsFile env path s →
      Inside directory (asked directory path)) ↔ ¬LeadsBeside directory path := by
  constructor
  · intro h hbeside
    exact not_prefix_of_besidesAs hbeside.2 (h _ _ (everywhere_worksIn directory)
      (everywhere_sendsFile hdirectory hbeside)).1
  · intro hbeside env s henv h
    exact inside_of_sendsFile hdirectory henv hbeside h

def srvPeer : List Path := ["srv".toList, "peer".toList]

theorem isName_srvPeer : ∀ name ∈ srvPeer, IsName name := by
  intro name hname
  rcases List.mem_pair.mp hname with rfl | rfl
  · exact ⟨by decide, by decide, by decide, by decide⟩
  · exact ⟨by decide, by decide, by decide, by decide⟩

theorem contained_tiny : ¬LeadsBeside srvPeer "a/../tiny.txt" ∧
    ∀ env s, WorksIn env srvPeer → SendsFile env "a/../tiny.txt" s →
      Inside srvPeer (asked srvPeer "a/../tiny.txt") := by
  have hbeside : ¬LeadsBeside srvPeer "a/../tiny.txt" := by
    intro h
    exact not_prefix_of_besidesAs h.2 (by decide +kernel)
  exact ⟨hbeside, (contained_iff isName_srvPeer "a/../tiny.txt").mpr hbeside⟩

/-- The neighbour of `/srv/peer` is `/srv/peer2`. -/
theorem neighbour_served : ¬∀ (directory : List Path), (∀ name ∈ directory, IsName name) →
    ∀ (path : String) (env : Surroundings) (s : Session), WorksIn env directory →
      SendsFile env path s → Inside directory (asked directory path) := by
  intro h
  have hasked : asked srvPeer "../peer2/x" = ["srv".toList, "peer2".toList, "x".toList] := by
    decide +kernel
  have hbeside : LeadsBeside srvPeer "../peer2/x" := by
    refine ⟨by decide +kernel, ["srv".toList], "peer".toList, ['2'], ["x".toList], by decide, rfl, ?_⟩
    exact hasked
  have hinside := h srvPeer isName_srvPeer "../peer2/x" (everywhere srvPeer) ⟨[], []⟩
    (everywhere_worksIn srvPeer) (everywhere_sendsFile isName_srvPeer hbeside)
  exact not_prefix_of_besidesAs hbeside.2 hinside.1

end CompSys.Peer
