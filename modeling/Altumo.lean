import Altumo.Library.CString
import Altumo.Library.Numeral
import Altumo.Library.InetAddress
import Altumo.Library.InputStream
import Altumo.Library.OrderedMap
import Altumo.Library.Intervals
import Altumo.Library.Backtracking
import Altumo.Library.Charset
import Altumo.Library.Json
import Altumo.Library.Cells
import Altumo.Library.Transition
import Altumo.Library.Descriptor
import Altumo.Library.PrefixCode
import Altumo.Library.Refill
import Altumo.Library.Lockstep
import Altumo.GeoIp.Server
import Altumo.GeoIp.Loader
import Altumo.GeoIp.Csv
import Altumo.GeoIp.Records
import Altumo.GeoIp.Reading
import Altumo.GeoIp.Counters
import Altumo.GeoIp.Ownership
import Altumo.GeoIp.LineSets
import Altumo.GeoIp.Lookup
import Altumo.GeoIp.Session
import Altumo.GeoIp.Framing
import Altumo.GeoIp.Memoryless
import Altumo.GeoIp.ResponseJson
import Altumo.FastCgi.Server
import Altumo.FastCgi.Lifecycle
import Altumo.FastCgi.Echo
import Altumo.FastCgi.Trace
import Altumo.Libfcgi.Record
import Altumo.Libfcgi.Writer
import Altumo.Libfcgi.Output
import Altumo.Libfcgi.Transcript
import Altumo.Libfcgi.OutputRuns
import Altumo.Libfcgi.WriteErrors
import Altumo.Libfcgi.Reader
import Altumo.Libfcgi.Source
import Altumo.Libfcgi.NameValue
import Altumo.Libfcgi.Filling
import Altumo.Libfcgi.Delivery
import Altumo.Libfcgi.Content
import Altumo.Libfcgi.Traffic
import Altumo.Libfcgi.Reading
import Altumo.Libfcgi.Values
import Altumo.Libfcgi.Session
import Altumo.Libfcgi.Accept
import Altumo.Libfcgi.Serving
import Altumo.Libfcgi.Answers
import Altumo.Libfcgi.Duplex
import Altumo.Libfcgi.Dialogue
import Altumo.Libfcgi.Buffering
import Altumo.Libfcgi.Service
import Altumo.Libfcgi.Listening
import Altumo.EchoCpp.Visits
