import Khive.Foundation.Bytes

/-!
# Vocabulary sources

A vocabulary declares subjects, triggers, phrases and actions that charters may name. The types are
those of a parsed source, before it is resolved against a registry. The two vocabularies that are
compiled into the program are here as their parsed sources.
-/

namespace Khive

namespace Charter

/-- How strongly a requirement is enforced. -/
inductive Level
  | advisory
  | soft
  | hard
  deriving DecidableEq, Repr

/-- Hard and soft requirements hold a phase until they pass. -/
def Level.holdsPhase : Level → Bool
  | .advisory => false
  | .soft => true
  | .hard => true

inductive EntryKind
  | subject
  | trigger
  | phrase
  | action
  deriving DecidableEq, Repr

/-- A parameter as it is written, the type still a word. -/
structure ParamSource where
  name : String
  ty : String
  optional : Bool
  deriving DecidableEq, Repr

structure EntrySource where
  line : Nat
  kind : EntryKind
  name : String
  description : Option String
  producerClass : Option String
  outcomes : Option (List String)
  passes : Option (List String)
  ceiling : Option Level
  params : List ParamSource
  newGeneration : Option (List String)
  deriving DecidableEq, Repr

structure VocabularySource where
  name : String
  version : Int
  entries : List EntrySource
  deriving DecidableEq, Repr

/-- An entry that declares its producer class and nothing else. -/
def EntrySource.plain (line : Nat) (kind : EntryKind) (name description producerClass : String) :
    EntrySource where
  line := line
  kind := kind
  name := name
  description := some description
  producerClass := some producerClass
  outcomes := none
  passes := none
  ceiling := none
  params := []
  newGeneration := none

open EntrySource (plain)

/-- The source of `core.vocab`. -/
def coreVocabulary : VocabularySource where
  name := "core"
  version := 1
  entries := [
    { plain 16 .subject "pull_request"
        "a pull request on a forge, referenced as <owner>/<repo>#<number>" "system" with
      newGeneration := some ["pull_request.opened", "pull_request.head_moved"] },
    plain 19 .subject "issue" "an issue on a forge" "system",
    plain 21 .subject "message" "a message or thread in an inbox" "system",
    plain 23 .subject "task" "a task record" "system",
    plain 25 .subject "memory" "a stored memory record" "system",
    plain 27 .subject "scheduled_event" "a scheduled event record" "system",
    plain 29 .subject "graph_edge" "a directed graph relation between two records" "system",
    plain 31 .subject "release" "a release of a project, referenced by its version" "system",
    plain 33 .subject "session" "one working session of an agent or person" "system",
    plain 36 .trigger "pull_request.opened" "the pull request was opened or reopened" "platform",
    plain 38 .trigger "pull_request.head_moved" "the pull request head changed" "platform",
    plain 40 .trigger "pull_request.closed" "the pull request was closed" "platform",
    plain 42 .trigger "review.requested" "a review was requested for the current head" "platform",
    plain 44 .trigger "review.posted"
      "a reviewer posted a verdict for the current head" "platform",
    plain 46 .trigger "fix.pushed"
      "the author pushed a change answering review findings" "platform",
    plain 48 .trigger "checks.concluded"
      "the required checks concluded for the current head" "platform",
    plain 50 .trigger "approval.recorded"
      "an approval was recorded for the current head" "platform",
    plain 52 .trigger "message.arrived" "a message arrived for the subject" "platform",
    plain 54 .trigger "schedule.fired" "a scheduled reminder fired" "system",
    plain 56 .trigger "prompt.received" "a person sent a prompt" "actor",
    { plain 59 .phrase "pull_request.open" "the pull request is open" "platform" with
      ceiling := some .hard },
    { plain 62 .phrase "pull_request.ready" "the pull request is out of draft" "platform" with
      outcomes := some ["ready", "draft"], passes := some ["ready"] },
    { plain 66 .phrase "pull_request.base"
        "the pull request targets the named base branch" "platform" with
      ceiling := some .hard, params := [⟨"branch", "string", false⟩] },
    { plain 70 .phrase "pull_request.head_unchanged"
        "the head is the one the approval was recorded against" "platform" with
      ceiling := some .hard },
    { plain 73 .phrase "pull_request.auto_merge_off"
        "no automatic merge is armed on the pull request" "platform" with ceiling := some .hard },
    { plain 76 .phrase "pull_request.size" "the pull request size class" "instrument" with
      outcomes := some ["small", "large", "oversized"], passes := some ["small", "large"] },
    { plain 80 .phrase "review.verdict_present"
        "a verdict exists for the current head" "platform" with ceiling := some .hard },
    { plain 83 .phrase "review.decision" "the reviewer's decision for the current head" "actor" with
      outcomes := some ["approve", "request_changes", "blocked"], passes := some ["approve"],
      ceiling := some .hard },
    { plain 88 .phrase "review.reviewer_independent"
        "the reviewer is independent of the author" "instrument" with ceiling := some .hard },
    { plain 91 .phrase "review.within_words"
        "the verdict stays within a word budget" "instrument" with
      params := [⟨"words", "integer", false⟩] },
    { plain 94 .phrase "review.findings_reproducible"
        "each finding carries a command that reproduces it" "actor" with ceiling := some .soft },
    { plain 97 .phrase "findings.addressed" "every finding is answered at the new head" "actor" with
      ceiling := some .soft },
    { plain 100 .phrase "checks.required_green"
        "every required check concluded successfully on the merge ref" "platform" with
      ceiling := some .hard, params := [⟨"event", "word", true⟩] },
    { plain 104 .phrase "gate.result" "a named gate's result for the current head" "instrument" with
      ceiling := some .hard, params := [⟨"name", "word", false⟩] },
    { plain 108 .phrase "approval.present" "an approval exists for the current head" "platform" with
      ceiling := some .hard, params := [⟨"reader_not_author", "bool", true⟩] },
    { plain 112 .phrase "approval.approver_not_last_pusher"
        "the approver did not push the current head" "platform" with ceiling := some .hard },
    { plain 115 .phrase "tree.clean"
        "the working tree is clean and the head unchanged after the work" "instrument" with
      ceiling := some .hard },
    plain 118 .phrase "agent.no_outward_writes"
      "the agent wrote nothing outside its workspace" "actor",
    { plain 120 .phrase "message.kind" "the kind of the message" "actor" with
      outcomes := some ["directive", "stop_order", "question", "report", "other"],
      passes := some [] },
    { plain 124 .phrase "inbox.unread_older_than"
        "unread messages older than the given age" "instrument" with
      outcomes := some ["none", "some"], passes := some ["none"], ceiling := some .hard,
      params := [⟨"age", "duration", false⟩] },
    { plain 130 .phrase "task.status" "the stored status of a task" "instrument" with
      outcomes := some ["inbox", "next", "waiting", "someday", "active", "done", "cancelled"],
      passes := some ["inbox", "next", "waiting", "someday", "active"], ceiling := some .hard },
    { plain 135 .phrase "graph.edge_present"
        "whether the directed graph edge is present" "instrument" with
      outcomes := some ["present", "absent"], passes := some ["present"], ceiling := some .hard,
      params := [⟨"source_id", "string", false⟩, ⟨"target_id", "string", false⟩,
        ⟨"relation", "word", false⟩] },
    { plain 143 .phrase "memory.recorded"
        "the decision was recorded where later sessions find it" "instrument" with
      ceiling := some .hard },
    { plain 146 .phrase "loop.log_written" "the session's log entry was written" "instrument" with
      ceiling := some .hard },
    { plain 150 .action "review.request" "start a review of the current head" "actor" with
      params := [⟨"reviewer", "word", true⟩] },
    plain 153 .action "review.write_verdict" "write the verdict with its findings" "actor",
    plain 155 .action "review.return_verdict" "deliver the verdict to the requester" "actor",
    plain 157 .action "review.read_diff" "read the diff and every cited site" "actor",
    plain 159 .action "tests.run_targeted" "run the targeted tests" "actor",
    plain 161 .action "tests.run_mutations" "run the mutation probes" "actor",
    plain 163 .action "fix.push" "push a change answering the findings" "actor",
    plain 165 .action "pull_request.approve" "approve the pull request" "actor",
    plain 167 .action "pull_request.merge" "merge the pull request" "actor",
    plain 169 .action "pull_request.split" "split the pull request into reviewable parts" "actor",
    { plain 171 .action "inbox.read" "read the inbox" "actor" with
      params := [⟨"limit", "integer", true⟩] },
    plain 174 .action "tasks.list_next" "list the next tasks" "actor",
    plain 176 .action "work.unit" "do one reversible unit of work" "actor",
    plain 178 .action "agents.halt" "stop every running agent" "actor"]

/-- The source of `pr_merge.vocab`. -/
def prMergeVocabulary : VocabularySource where
  name := "pr_merge"
  version := 1
  entries := [
    plain 5 .trigger "pr_merge.candidate_observed"
      "a merge candidate was observed for the pull request" "platform",
    { plain 8 .phrase "pr_merge.candidate_supported"
        "the candidate's repository, target and merge method are supported" "instrument" with
      ceiling := some .hard },
    { plain 11 .phrase "pr_merge.evidence_complete_trusted"
        "every evidence item is complete and comes from a trusted producer" "instrument" with
      ceiling := some .hard },
    { plain 14 .phrase "pr_merge.required_checks"
        "every required check, the platform's rules united with the floor, succeeded at the tested revision"
        "platform" with
      ceiling := some .hard,
      params := [⟨"event", "word", false⟩, ⟨"tested_revision", "word", false⟩] },
    { plain 19 .phrase "pr_merge.floor_check"
        "a check on the definition's floor succeeded at the tested revision" "instrument" with
      ceiling := some .hard, params := [⟨"name", "string", false⟩, ⟨"producer", "string", false⟩] },
    { plain 24 .phrase "pr_merge.review_at_head"
        "an authorised approve verdict is bound to the head and the scope digest" "platform" with
      ceiling := some .hard },
    { plain 27 .phrase "pr_merge.family_independent"
        "the reviewer's family differs from every family that produced the change" "instrument" with
      ceiling := some .hard },
    { plain 30 .phrase "pr_merge.no_self_approval"
        "approvers are disjoint from the producing actors and the author's and last pusher's accounts"
        "platform" with
      ceiling := some .hard, params := [⟨"controller", "word", false⟩] },
    { plain 34 .phrase "pr_merge.adr_scope_approved"
        "a change under docs/adr carries the architecture authority's approval at the head and scope"
        "platform" with
      outcomes := some ["pass", "fail", "not_applicable"],
      passes := some ["pass", "not_applicable"], ceiling := some .hard },
    { plain 39 .phrase "pr_merge.scope_and_policy_paths_approved"
        "the changed paths equal the approved scope and protected paths carry the policy authority's attestation"
        "instrument" with
      ceiling := some .hard },
    { plain 42 .phrase "pr_merge.all_merge_requirements_current"
        "every merge requirement is current at claim time" "platform" with ceiling := some .hard },
    { plain 45 .phrase "pr_merge.exact_action_authorized"
        "the exact action descriptor naming the expected head is authorised" "instrument" with
      ceiling := some .hard },
    { plain 48 .phrase "pr_merge.platform_enforcement_verified"
        "the platform's protection settings match the charter" "platform" with
      ceiling := some .hard },
    { plain 52 .action "pr_merge.git_pr_merge"
        "merge the pull request through the git merge verb" "actor" with
      params := [⟨"method", "word", false⟩, ⟨"expected_head", "word", false⟩] }]

def compiledVocabularyNames : List String := ["core", "pr_merge"]

def compiledEntryNames : List String :=
  (coreVocabulary.entries ++ prMergeVocabulary.entries).map EntrySource.name

end Charter

end Khive
