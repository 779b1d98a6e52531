import PhpCouchbase.Lib.Numeral
import PhpCouchbase.LongText
import PhpCouchbase.Strtol
import PhpCouchbase.Lib.LittleEndian
import PhpCouchbase.Transcoder
import PhpCouchbase.TranscoderRoundTrip
import PhpCouchbase.Transcoding
import PhpCouchbase.DecoderReading
import PhpCouchbase.DecoderSafety
import PhpCouchbase.DecoderDeterminism
import PhpCouchbase.CompressionBuffers
import PhpCouchbase.CompressionDecision
import PhpCouchbase.Base36
import PhpCouchbase.Lib.OrderedMap
import PhpCouchbase.Opcookie
import PhpCouchbase.Document
import PhpCouchbase.Paramparser
import PhpCouchbase.Batch
import PhpCouchbase.BatchResults
import PhpCouchbase.BatchLossless
import PhpCouchbase.BatchMap
import PhpCouchbase.BatchInFlight
import PhpCouchbase.StoreGet
import PhpCouchbase.EncoderFailure
import PhpCouchbase.MutationState
import PhpCouchbase.MutationStateCovers
import PhpCouchbase.Authenticator
import PhpCouchbase.Pool
import PhpCouchbase.Lib.Versioned
import PhpCouchbase.Subdoc
import PhpCouchbase.DataStructures
import PhpCouchbase.ListServer
import PhpCouchbase.SetRemove
import PhpCouchbase.Queue
import PhpCouchbase.QueueSafe
import PhpCouchbase.SubdocWrites
import PhpCouchbase.Credentials
import PhpCouchbase.MutationStateSearch
import PhpCouchbase.Json
import PhpCouchbase.Lib.LastWrite
import PhpCouchbase.SearchQueryPart
import PhpCouchbase.SearchQueryMeaning
import PhpCouchbase.SearchFacet
import PhpCouchbase.SearchQuery
import PhpCouchbase.DesignDocument
import PhpCouchbase.Lib.RefCount
import PhpCouchbase.PoolRefs
import PhpCouchbase.MutationStateAtomic
import PhpCouchbase.RangeQueries
import PhpCouchbase.NumericOptions
import PhpCouchbase.OptionalArguments
import PhpCouchbase.SubdocResults
import PhpCouchbase.Lib.JsonText
import PhpCouchbase.MultiValue
import PhpCouchbase.Lib.LinkedList
import PhpCouchbase.Lib.FallibleFold
import PhpCouchbase.SpecBuilder
import PhpCouchbase.Base36Codec
import PhpCouchbase.ParamparserLoop
import PhpCouchbase.BatchExpansion
import PhpCouchbase.QueryRows
import PhpCouchbase.RowAssembly
import PhpCouchbase.N1qlOptions
import PhpCouchbase.ViewQuery
import PhpCouchbase.AdminRequests
import PhpCouchbase.AdminPaths
import PhpCouchbase.ConnectionString
import PhpCouchbase.AbsentCredentials
import PhpCouchbase.BucketProperties
import PhpCouchbase.BuilderLifetime
import PhpCouchbase.OpcookieList
import PhpCouchbase.Fastlz
import PhpCouchbase.Lib.Lz77
import PhpCouchbase.FastlzStream
import PhpCouchbase.FastlzDecompress
import PhpCouchbase.FastlzDecode
import PhpCouchbase.FastlzCompress
import PhpCouchbase.FastlzCompressRun
import PhpCouchbase.FastlzRoundTrip
import PhpCouchbase.FastlzBuffers
import PhpCouchbase.ListHistory
import PhpCouchbase.SetDistinct
import PhpCouchbase.KvServer
import PhpCouchbase.OptimisticLocking
import PhpCouchbase.ReadModifyWrite
import PhpCouchbase.Lib.FormUrl
import PhpCouchbase.FormEncode
import PhpCouchbase.FormOptions
import PhpCouchbase.ViewRequest
import PhpCouchbase.AdminForms
