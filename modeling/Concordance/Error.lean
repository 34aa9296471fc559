import Concordance.Bytes

/-!
# Errors

Everything that can go wrong, by cause, and the one place where a cause is put into words. A cause
carries what its message names, so two errors are equal exactly when they say the same about the
same thing.
-/

namespace Concordance

/-- What is wrong with a query. -/
inductive QueryFault where
  | emptyQuery
  | missingClause
  /-- A byte that cannot begin a clause. -/
  | unexpected (b : UInt8)
  | missingAlternative
  | danglingMinus
  | doubleNegation
  | starInside
  | emptyWildcard
  | starAfterPhrase
  | openQuote
  | emptyPhrase
  | emptyGroup
  | openGroup
  | strayClose
  | strayByte
  /-- A negated clause that is no part of a conjunction. -/
  | loneNegation
  /-- A conjunction of negated clauses alone. -/
  | onlyNegations
  /-- A wildcard before whose star there are several words. -/
  | compoundWildcard
  deriving DecidableEq, Repr

/-- What is wrong with the configuration of an engine. -/
inductive SettingsFault where
  | unreadable (path : Bytes)
  /-- The text of a source cannot be read, for the reason that its reader gives. -/
  | malformed (source reason : Bytes)
  | rootNotMapping
  /-- A scalar stands where a section was asked for. -/
  | scalarSection
  | invalidValue (part key : Bytes)
  | lengthLimits
  | unknownStemmer (name : Bytes)
  | limitNotPositive
  | negativeDistance
  | unknownScorer (name : Bytes)
  | scorerRange
  | decayRange
  | synonymsNotList
  | classNotList
  | termNotText
  | batchSizeNotPositive
  | emptySynonym
  | smallClass
  | overlappingClass (term : Bytes)
  | blankSynonym (text : Bytes)
  | compoundSynonym (text : Bytes)
  deriving DecidableEq, Repr

/-- What is wrong with a document that is to be added. -/
inductive IngestFault where
  | emptyId
  | noFields (id : Bytes)
  | emptyFieldName (id : Bytes)
  | illFormedText (field id : Bytes)
  deriving DecidableEq, Repr

/-- What is wrong with an index. -/
inductive IndexFault where
  | emptyPostings (term : Bytes)
  | unorderedPostings (term : Bytes)
  | unknownDocument (term id : Bytes)
  | postingWithoutFields (term id : Bytes)
  | unorderedFields (term id : Bytes)
  | badPositions (term id : Bytes)
  | wrongFrequency (term id : Bytes)
  | unknownTerm (id term : Bytes)
  /-- A document lists a term whose postings lack it. -/
  | missingPosting (id term : Bytes)
  /-- A search met a posting of a document that is not there. -/
  | danglingPosting (id : Bytes)
  | unorderedMatches
  deriving DecidableEq, Repr

/-- What is wrong with a file that should hold an index. -/
inductive ArchiveFault where
  | truncated
  | notArchive
  | unsupportedVersion (major : UInt16)
  | oversizedString
  | repeatedDocument
  | wrongTokenCount
  | tooManyPositions
  | repeatedTerm
  /-- The file can be read, but what it says is no sound index. -/
  | unsound (fault : IndexFault)
  deriving DecidableEq, Repr

/-- Why a file cannot take the place of what is at a path. -/
inductive ReplaceFault where
  | isDirectory
  /-- The path says that a directory is meant. -/
  | notDirectory
  /-- The path leads back to a place that it came from. -/
  | busy
  | notFound
  deriving DecidableEq, Repr

/-- An error of the library. -/
inductive Error where
  /-- A malformed query, and the offset of the byte at fault. -/
  | query (fault : QueryFault) (position : Nat)
  | settings (fault : SettingsFault)
  | ingest (fault : IngestFault)
  | index (fault : IndexFault)
  | archive (path : Bytes) (fault : ArchiveFault)
  | cancelled
  /-- A term was looked up within a negative distance. -/
  | negativeDistance
  /-- A search asked for no results. -/
  | limitNotPositive
  /-- A search asked for terms within a negative distance. -/
  | negativeSearchDistance
  /-- A page that would end before it begins. -/
  | pageTooLarge
  | cannotOpen (path : Bytes)
  | cannotReplace (path : Bytes) (fault : ReplaceFault)
  deriving DecidableEq, Repr

/-- A text in single quotes. -/
def quoted (s : Bytes) : Bytes :=
  utf8 "'" ++ s ++ utf8 "'"

namespace QueryFault

/-- A query fault in words. -/
def message : QueryFault → Bytes
  | emptyQuery => utf8 "empty query"
  | missingClause => utf8 "expected a clause"
  | unexpected b => utf8 "unexpected " ++ quoted [b]
  | missingAlternative => utf8 "expected a clause after '|'"
  | danglingMinus => utf8 "'-' must be followed by a clause"
  | doubleNegation => utf8 "double negation"
  | starInside => utf8 "'*' is only allowed at the end of a word"
  | emptyWildcard => utf8 "prefix before '*' is empty"
  | starAfterPhrase => utf8 "'*' cannot follow a phrase"
  | openQuote => utf8 "unbalanced quote"
  | emptyPhrase => utf8 "empty phrase"
  | emptyGroup => utf8 "empty group"
  | openGroup => utf8 "unbalanced '('"
  | strayClose => utf8 "unbalanced ')'"
  | strayByte => utf8 "unexpected character"
  | loneNegation => utf8 "a negated clause needs a positive clause next to it"
  | onlyNegations => utf8 "a query cannot consist of negated clauses only"
  | compoundWildcard => utf8 "a prefix must be a single word"

end QueryFault

namespace SettingsFault

/-- A configuration fault in words. -/
def message : SettingsFault → Bytes
  | unreadable path => utf8 "cannot read configuration file: " ++ path
  | malformed source reason =>
    utf8 "malformed configuration" ++ source ++ utf8 ": " ++ reason
  | rootNotMapping => utf8 "configuration root must be a mapping"
  | scalarSection => utf8 "operator[] call on a scalar"
  | invalidValue part key => utf8 "invalid value for " ++ quoted (part ++ utf8 "." ++ key)
  | lengthLimits =>
    utf8 "tokenizer.min_length must be positive and not exceed tokenizer.max_length"
  | unknownStemmer name => utf8 "unknown stemmer: " ++ name
  | limitNotPositive => utf8 "search.limit must be positive"
  | negativeDistance => utf8 "search.max_fuzzy_distance must not be negative"
  | unknownScorer name => utf8 "unknown scorer: " ++ name
  | scorerRange => utf8 "bm25 parameters out of range"
  | decayRange => utf8 "search.fuzzy_decay must be in (0, 1]"
  | synonymsNotList => utf8 "synonyms must be a list of term lists"
  | classNotList => utf8 "each synonym class must be a list of terms"
  | termNotText => utf8 "synonym terms must be strings"
  | batchSizeNotPositive => utf8 "db.batch_size must be positive"
  | emptySynonym => utf8 "synonym class contains an empty term"
  | smallClass => utf8 "synonym class needs at least two distinct terms"
  | overlappingClass term =>
    utf8 "term " ++ quoted term ++ utf8 " already belongs to a synonym class"
  | blankSynonym text => utf8 "synonym " ++ quoted text ++ utf8 " has no indexable text"
  | compoundSynonym text => utf8 "synonym " ++ quoted text ++ utf8 " must be a single word"

end SettingsFault

namespace IngestFault

/-- A document fault in words. -/
def message : IngestFault → Bytes
  | emptyId => utf8 "document id is empty"
  | noFields id => utf8 "document " ++ quoted id ++ utf8 " has no fields"
  | emptyFieldName id => utf8 "document " ++ quoted id ++ utf8 " has a field with an empty name"
  | illFormedText field id =>
    utf8 "field " ++ quoted field ++ utf8 " of document " ++ quoted id ++
      utf8 " is not valid UTF-8"

end IngestFault

namespace IndexFault

/-- An index fault in words. -/
def message : IndexFault → Bytes
  | emptyPostings term => utf8 "empty postings list for term " ++ quoted term
  | unorderedPostings term =>
    utf8 "postings of " ++ quoted term ++ utf8 " are not strictly ordered by document id"
  | unknownDocument term id =>
    utf8 "postings of " ++ quoted term ++ utf8 " refer to unknown document " ++ quoted id
  | postingWithoutFields term id =>
    utf8 "posting of " ++ quoted term ++ utf8 " in " ++ quoted id ++ utf8 " has no fields"
  | unorderedFields term id =>
    utf8 "field hits of " ++ quoted term ++ utf8 " in " ++ quoted id ++ utf8 " are not ordered"
  | badPositions term id =>
    utf8 "bad positions for " ++ quoted term ++ utf8 " in " ++ quoted id
  | wrongFrequency term id =>
    utf8 "frequency of " ++ quoted term ++ utf8 " in " ++ quoted id ++
      utf8 " does not match its positions"
  | unknownTerm id term =>
    utf8 "document " ++ quoted id ++ utf8 " lists term " ++ quoted term ++
      utf8 " missing from the dictionary"
  | missingPosting id term =>
    utf8 "document " ++ quoted id ++ utf8 " is missing from the postings of " ++ quoted term
  | danglingPosting id => utf8 "postings refer to unknown document " ++ quoted id
  | unorderedMatches => utf8 "evaluation produced matches out of document order"

end IndexFault

namespace ArchiveFault

/-- A file fault in words, for the file at a path. -/
def message (path : Bytes) : ArchiveFault → Bytes
  | truncated => utf8 "snapshot " ++ path ++ utf8 " is truncated"
  | notArchive => path ++ utf8 " is not an index snapshot"
  | unsupportedVersion major => utf8 "unsupported snapshot version " ++ decimal major.toNat
  | oversizedString => utf8 "snapshot " ++ path ++ utf8 " contains an oversized string"
  | repeatedDocument => utf8 "snapshot " ++ path ++ utf8 " lists a document twice"
  | wrongTokenCount =>
    utf8 "snapshot " ++ path ++ utf8 " token count does not match its documents"
  | tooManyPositions =>
    utf8 "snapshot " ++ path ++ utf8 " has more positions than its frequency"
  | repeatedTerm => utf8 "snapshot " ++ path ++ utf8 " lists a term twice"
  | unsound fault => fault.message

end ArchiveFault

namespace ReplaceFault

/-- In words. -/
def message : ReplaceFault → Bytes
  | isDirectory => utf8 "Is a directory"
  | notDirectory => utf8 "Not a directory"
  | busy => utf8 "Device or resource busy"
  | notFound => utf8 "No such file or directory"

end ReplaceFault

namespace Error

/-- An error in words. -/
def wording : Error → Bytes
  | query fault position => fault.message ++ utf8 " at position " ++ decimal position
  | settings fault => fault.message
  | ingest fault => fault.message
  | index fault => fault.message
  | archive path fault => fault.message path
  | cancelled => utf8 "search cancelled"
  | negativeDistance => utf8 "max_distance must not be negative"
  | limitNotPositive => utf8 "limit must be positive"
  | negativeSearchDistance => utf8 "max_fuzzy_distance must not be negative"
  | pageTooLarge => utf8 "cannot create std::vector larger than max_size()"
  | cannotOpen path => utf8 "Cannot open file: " ++ path
  | cannotReplace path fault =>
    utf8 "Cannot replace snapshot " ++ path ++ utf8 ": " ++ fault.message

/-- What is shown of an error: its wording as far as the first zero byte, where a message ends. -/
def message (e : Error) : Bytes :=
  e.wording.takeWhile (· != 0)

end Error

end Concordance
