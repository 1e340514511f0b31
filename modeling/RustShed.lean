import RustShed.SortedVectorMap.Order
import RustShed.SortedVectorMap.BinarySearch
import RustShed.SortedVectorMap.Set
import RustShed.SortedVectorMap.Range
import RustShed.SortedVectorMap.Iter
import RustShed.SortedVectorMap.Merge
import RustShed.SortedVectorMap.Extend
import RustShed.SortedVectorMap.Operation
import RustShed.SortedVectorMap.SizeHint
import RustShed.SortedVectorMap.Scan
import RustShed.SortedVectorMap.Invariant
import RustShed.SortedVectorMap.Refinement
import RustShed.SortedVectorMap.Laws
import RustShed.Sqlite.Protocol
import RustShed.Sqlite.Drain
import RustShed.Sqlite.Pool
import RustShed.SlogGlogFmt.Collector
